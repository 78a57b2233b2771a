import NpuArc.Scheduler.ByteServer
import Mathlib.Data.Set.Finite.Lemmas
import Mathlib.Data.Set.Finite.List
import Mathlib.Tactic.Linarith

/-!
# Work conservation of byte servers

Members that are present from the same time on finish together when all bytes are
through if the bandwidth is never idle. In strict priority order this is so up to
one picosecond for each member. Under equal sharing every member keeps its share
of the bandwidth although others are done, so it is so only for even demands.
-/

namespace NpuArc

/-- What a member asks for. -/
structure ByteDemand where
  memberId : String
  bytesRequested : ℤ
  priority : ℤ := 0

namespace ByteServer

/-- Add members one after the other, all at the same time. -/
def addMembers (s : ByteServer) (demands : List ByteDemand) (nowPs : ℤ) :
    Except Error ByteServer :=
  demands.foldlM (fun s d =>
    (s.addMember d.memberId d.bytesRequested d.priority nowPs).map Prod.snd) s

/-! ### Completion times after a computation -/

/-- The completion times that the members of a server get. -/
structure Completes (s : ByteServer) (nowPs : ℤ) (done : String → ℤ) : Prop where
  equal : s.qosMode = .equalShare → ∀ a ∈ s.members.keys, done a =
    nowPs + transferPs (bytesOf s.members a) (s.bandwidthBytesPerPs / s.members.size)
  strict : s.qosMode = .strictPriority →
    (∀ a ∈ s.members.keys,
      nowPs + transferPs (bytesOf s.members a) s.bandwidthBytesPerPs ≤ done a ∧
      done a ≤ nowPs +
        (s.members.keys.map fun b => transferPs (bytesOf s.members b) s.bandwidthBytesPerPs).sum) ∧
    ∃ a ∈ s.members.keys, done a = nowPs +
      (s.members.keys.map fun b => transferPs (bytesOf s.members b) s.bandwidthBytesPerPs).sum

/-- A computation completes every member and changes nothing else. -/
theorem recompute_spec (s : ByteServer) (nowPs : ℤ) (hsize : s.members.size ≠ 0) :
    ∃ members' done, s.recompute nowPs = .ok { s with members := members' } ∧
      members'.keys = s.members.keys ∧
      (∀ a, members'.get? a = (s.members.get? a).map (.completedAt (done a))) ∧
      s.Completes nowPs done := by
  have hpos := s.bandwidth_pos
  have hnone : ∀ members' : Dict String ByteMember, members'.keys = s.members.keys →
      ∀ a ∉ s.members.keys, members'.get? a = none := by
    intro members' hkeys a ha
    exact Dict.not_mem_keys.mp (hkeys ▸ ha)
  unfold recompute
  rw [if_neg hsize]
  cases hmode : s.qosMode with
  | equalShare =>
    have hshare : 0 < s.bandwidthBytesPerPs / s.members.size :=
      div_pos hpos (Nat.cast_pos.mpr (Nat.pos_of_ne_zero hsize))
    simp only [if_neg hshare.not_ge]
    refine ⟨_, fun a => nowPs + transferPs (bytesOf s.members a)
      (s.bandwidthBytesPerPs / s.members.size), rfl, keys_serveEqually .., ?_, ?_, ?_⟩
    · intro a
      rw [get?_serveEqually]
      by_cases ha : a ∈ s.members.keys
      · rw [if_pos ((List.mem_insertionSort _).mpr ha)]
      · rw [if_neg (mt (List.mem_insertionSort _).mp ha), Dict.not_mem_keys.mp ha, Option.map_none]
    · exact fun _ _ _ => rfl
    · intro h
      rw [hmode] at h
      cases h
  | strictPriority =>
    set ordered := s.members.keys.insertionSort fun a b =>
      toLex (-priorityOf s.members a, a) ≤ toLex (-priorityOf s.members b, b)
    have hperm : ordered.Perm s.members.keys := List.perm_insertionSort _ _
    obtain ⟨done, hget, hbounds, hlast⟩ := serveInTurn_spec hpos nowPs 0 s.members
      (hperm.nodup_iff.mpr s.members.keys_nodup)
    have hsum := (hperm.map fun b => transferPs (bytesOf s.members b) s.bandwidthBytesPerPs).sum_eq
    rw [hsum] at hbounds hlast
    simp only [add_zero] at hbounds hlast
    refine ⟨_, done, rfl, keys_serveInTurn .., ?_, ?_, fun _ => ⟨?_, ?_⟩⟩
    · intro a
      by_cases ha : a ∈ s.members.keys
      · exact hget a (hperm.mem_iff.mpr ha)
      · rw [get?_serveInTurn_of_not_mem (mt hperm.mem_iff.mp ha), Dict.not_mem_keys.mp ha,
          Option.map_none]
    · intro h
      rw [hmode] at h
      cases h
    · intro a ha
      exact hbounds a (hperm.mem_iff.mpr ha)
    · have hne : ordered ≠ [] := by
        intro hnil
        have hlength := hperm.length_eq
        rw [hnil, List.length_nil, Dict.keys, List.length_map] at hlength
        exact hsize hlength.symm
      obtain ⟨a, ha, heq⟩ := hlast hne
      exact ⟨a, hperm.mem_iff.mp ha, heq⟩

/-! ### Members added at one time -/

/-- Members that were added, with the completion times that they have. -/
structure Added (demands : List ByteDemand) (members : Dict String ByteMember) : Prop where
  keys : members.keys = demands.map ByteDemand.memberId
  demand : ∀ d ∈ demands, ∃ timePs, members.get? d.memberId =
    some ⟨d.bytesRequested, d.priority, timePs⟩

private theorem Added.bytesOf {demands : List ByteDemand} {members : Dict String ByteMember}
    (h : Added demands members) {d : ByteDemand} (hd : d ∈ demands) :
    bytesOf members d.memberId = d.bytesRequested := by
  obtain ⟨timePs, hget⟩ := h.demand d hd
  rw [NpuArc.bytesOf, hget, Option.elim_some]

private theorem Added.size {demands : List ByteDemand} {members : Dict String ByteMember}
    (h : Added demands members) : members.size = demands.length := by
  have hlength := congrArg List.length h.keys
  rwa [List.length_map, Dict.keys, List.length_map] at hlength

/-- The time that the transfers of all demands take one after the other. -/
def totalPs (demands : List ByteDemand) (bandwidth : ℚ) : ℤ :=
  (demands.map fun d => transferPs d.bytesRequested bandwidth).sum

private theorem Added.sum_eq {demands : List ByteDemand} {members : Dict String ByteMember}
    (h : Added demands members) (bandwidth : ℚ) :
    (members.keys.map fun a => transferPs (NpuArc.bytesOf members a) bandwidth).sum =
      totalPs demands bandwidth := by
  rw [h.keys, List.map_map, totalPs]
  congr 1
  refine List.map_congr_left fun d hd => ?_
  rw [Function.comp_apply, h.bytesOf hd]

/-- The completion times of demands that are present from one time on. -/
structure CompletesAll (s : ByteServer) (demands : List ByteDemand) (nowPs : ℤ)
    (done : ByteDemand → ℤ) : Prop where
  equal : s.qosMode = .equalShare → ∀ d ∈ demands, done d =
    nowPs + transferPs d.bytesRequested (s.bandwidthBytesPerPs / demands.length)
  strict : s.qosMode = .strictPriority →
    (∀ d ∈ demands, nowPs + transferPs d.bytesRequested s.bandwidthBytesPerPs ≤ done d ∧
      done d ≤ nowPs + totalPs demands s.bandwidthBytesPerPs) ∧
    ∃ d ∈ demands, done d = nowPs + totalPs demands s.bandwidthBytesPerPs

/-- One more member is added to those that are there. -/
private theorem addMember_spec (s : ByteServer) {demands : List ByteDemand} {d : ByteDemand}
    (nowPs : ℤ) (hadded : Added demands s.members) (hbytes : 0 ≤ d.bytesRequested)
    (hnew : d.memberId ∉ demands.map ByteDemand.memberId) :
    ∃ (members' : Dict String ByteMember) (done : String → ℤ),
      (s.addMember d.memberId d.bytesRequested d.priority nowPs).map Prod.snd =
        .ok { s with members := members' } ∧
      Added (demands ++ [d]) members' ∧
      (∀ e ∈ demands ++ [d], members'.get? e.memberId =
        some ⟨e.bytesRequested, e.priority, some (done e.memberId)⟩) ∧
      s.CompletesAll (demands ++ [d]) nowPs fun e => done e.memberId := by
  set s₁ : ByteServer :=
    { s with members := s.members.insert d.memberId ⟨d.bytesRequested, d.priority, none⟩ } with hs₁
  have hadded₁ : Added (demands ++ [d]) s₁.members := by
    constructor
    · rw [hs₁, Dict.keys_insert_of_not_mem _ (hadded.keys ▸ hnew), hadded.keys]
      simp
    · intro e he
      simp only [hs₁, Dict.get?_insert]
      rcases List.mem_append.mp he with he | he
      · have hne : e.memberId ≠ d.memberId := by
          intro heq
          exact hnew (heq ▸ List.mem_map_of_mem he)
        rw [if_neg hne]
        exact hadded.demand e he
      · rw [List.mem_singleton.mp he, if_pos rfl]
        exact ⟨none, rfl⟩
  have hsize : s₁.members.size ≠ 0 := by
    rw [hadded₁.size]
    simp
  obtain ⟨members', done, hok, hkeys, hget, hcompletes⟩ := recompute_spec s₁ nowPs hsize
  have hmember : ∀ e ∈ demands ++ [d], members'.get? e.memberId =
      some ⟨e.bytesRequested, e.priority, some (done e.memberId)⟩ := by
    intro e he
    obtain ⟨timePs, hdemand⟩ := hadded₁.demand e he
    rw [hget, hdemand]
    rfl
  have hmem : ∀ e ∈ demands ++ [d], e.memberId ∈ s₁.members.keys := by
    intro e he
    rw [hadded₁.keys]
    exact List.mem_map_of_mem he
  refine ⟨members', done, ?_, ⟨hkeys.trans hadded₁.keys, fun e he => ⟨_, hmember e he⟩⟩, hmember,
    ?_, ?_⟩
  · have hcompletion : ByteServer.completionTimePs { s₁ with members := members' } d.memberId =
        .ok (done d.memberId) := by
      simp [completionTimePs, hmember d (by simp)]
    rw [addMember, if_neg hbytes.not_gt, hok, bind_eq_ok_left, hcompletion]
    rfl
  · intro hmode e he
    rw [hcompletes.equal hmode e.memberId (hmem e he), hadded₁.bytesOf he, hadded₁.size]
  · intro hmode
    obtain ⟨hbounds, a, ha, hlast⟩ := hcompletes.strict hmode
    rw [hadded₁.sum_eq] at hlast
    constructor
    · intro e he
      have he' := hbounds e.memberId (hmem e he)
      rwa [hadded₁.bytesOf he, hadded₁.sum_eq] at he'
    · rw [hadded₁.keys] at ha
      obtain ⟨e, he, rfl⟩ := List.mem_map.mp ha
      exact ⟨e, he, hlast⟩

/-- All members are added, and those that are there complete by the law of the mode. -/
theorem addMembers_spec {s : ByteServer} (hempty : s.members = .empty) (nowPs : ℤ)
    {demands : List ByteDemand} (hnodup : (demands.map ByteDemand.memberId).Nodup)
    (hbytes : ∀ d ∈ demands, 0 ≤ d.bytesRequested) :
    ∃ members', s.addMembers demands nowPs = .ok { s with members := members' } ∧
      Added demands members' ∧
      (demands ≠ [] → ∃ done : String → ℤ,
        (∀ d ∈ demands, members'.get? d.memberId =
          some ⟨d.bytesRequested, d.priority, some (done d.memberId)⟩) ∧
        s.CompletesAll demands nowPs fun d => done d.memberId) := by
  induction demands using List.reverseRecOn with
  | nil => exact ⟨.empty, by rw [addMembers, ← hempty]; rfl, ⟨rfl, by simp⟩, fun h => absurd rfl h⟩
  | append_singleton demands d ih =>
    rw [List.map_append, List.nodup_append] at hnodup
    obtain ⟨hfirst, -, hdisjoint⟩ := hnodup
    obtain ⟨members, hok, hadded, -⟩ := ih hfirst fun e he => hbytes e (List.mem_append_left _ he)
    have hnew : d.memberId ∉ demands.map ByteDemand.memberId :=
      fun hmem => hdisjoint d.memberId hmem d.memberId (by simp) rfl
    obtain ⟨members', done, hadd, hadded', hget, hcompletes⟩ :=
      addMember_spec { s with members := members } nowPs hadded (hbytes d (by simp)) hnew
    refine ⟨members', ?_, hadded', fun _ => ⟨done, hget, hcompletes.equal, hcompletes.strict⟩⟩
    rw [addMembers, List.foldlM_append]
    change (s.addMembers demands nowPs >>= _) = _
    rw [hok, bind_eq_ok_left, List.foldlM_cons, hadd]
    rfl

/-! ### Work conservation -/

/-- The bytes of all demands. -/
def requestedBytes (demands : List ByteDemand) : ℤ := (demands.map ByteDemand.bytesRequested).sum

/-- What a server that never idles does with demands that are present from one time on: the last
member completes when all bytes are through, up to a picosecond for each member, no member
completes before its bytes are through, and equal shares complete in order of the demands. -/
structure WorkConserved (s s' : ByteServer) (demands : List ByteDemand) (nowPs : ℤ) : Prop where
  latest : ∃ latest : ℤ,
    (∃ d ∈ demands, s'.completionTimePs d.memberId = .ok latest) ∧
    (∀ d ∈ demands, ∀ timePs, s'.completionTimePs d.memberId = .ok timePs → timePs ≤ latest) ∧
    |(latest : ℚ) - (nowPs + requestedBytes demands / s.bandwidthBytesPerPs)| ≤ demands.length
  earliest : ∀ d ∈ demands, ∃ timePs, s'.completionTimePs d.memberId = .ok timePs ∧
    (nowPs : ℚ) + d.bytesRequested / s.bandwidthBytesPerPs ≤ timePs
  ordered : s.qosMode = .equalShare → ∀ d ∈ demands, ∀ e ∈ demands,
    d.bytesRequested ≤ e.bytesRequested → ∀ timePs timePs',
      s'.completionTimePs d.memberId = .ok timePs →
      s'.completionTimePs e.memberId = .ok timePs' → timePs ≤ timePs'

/-- No demand is much larger than the mean: sent by every member, it takes at most one
picosecond for each member longer than all bytes in whole picoseconds. -/
def EvenDemands (demands : List ByteDemand) (bandwidth : ℚ) : Prop :=
  ∀ d ∈ demands, (demands.length : ℚ) * d.bytesRequested ≤
    bandwidth * (⌊(requestedBytes demands : ℚ) / bandwidth⌋ + demands.length)

/-- One transfer after the other takes the time of all bytes, and less than a picosecond more for
each of them. -/
private theorem totalPs_bounds {demands : List ByteDemand} (bandwidth : ℚ)
    (hbytes : ∀ d ∈ demands, 0 ≤ d.bytesRequested) :
    (requestedBytes demands : ℚ) / bandwidth ≤ totalPs demands bandwidth ∧
      (totalPs demands bandwidth : ℚ) ≤ requestedBytes demands / bandwidth + demands.length := by
  induction demands with
  | nil => simp [requestedBytes, totalPs]
  | cons d demands ih =>
    obtain ⟨hlower, hupper⟩ := ih fun e he => hbytes e (List.mem_cons_of_mem d he)
    have hceil := Int.le_ceil ((d.bytesRequested : ℚ) / bandwidth)
    have hceil_lt := Int.ceil_lt_add_one ((d.bytesRequested : ℚ) / bandwidth)
    simp only [requestedBytes, totalPs, List.map_cons, List.sum_cons, List.length_cons,
      transferPs_of_nonneg (hbytes d List.mem_cons_self), Int.cast_add, add_div, Nat.cast_add,
      Nat.cast_one] at hlower hupper ⊢
    constructor <;> linarith

/-- All demands together are no more than the largest demand sent by every member. -/
private theorem requestedBytes_le {demands : List ByteDemand} {bytes : ℤ}
    (h : ∀ d ∈ demands, d.bytesRequested ≤ bytes) :
    requestedBytes demands ≤ demands.length * bytes := by
  have hsum := List.sum_le_card_nsmul (demands.map ByteDemand.bytesRequested) bytes (by simpa using h)
  simpa [requestedBytes] using hsum

/-- A share of the bandwidth for each member transfers as slowly as all members' bytes at full
bandwidth. -/
private theorem transferPs_share {s : ByteServer} {demands : List ByteDemand} {bytes : ℤ}
    (hbytes : 0 ≤ bytes) :
    transferPs bytes (s.bandwidthBytesPerPs / demands.length) =
      ⌈(demands.length : ℚ) * bytes / s.bandwidthBytesPerPs⌉ := by
  rw [transferPs_of_nonneg hbytes, div_div_eq_mul_div, mul_comm]

variable {s : ByteServer} {demands : List ByteDemand} {nowPs : ℤ} {done : ByteDemand → ℤ}

/-- In both modes no member completes before its bytes are through. -/
private theorem CompletesAll.earliest (h : s.CompletesAll demands nowPs done)
    (hbytes : ∀ d ∈ demands, 0 ≤ d.bytesRequested) {d : ByteDemand} (hd : d ∈ demands) :
    (nowPs : ℚ) + d.bytesRequested / s.bandwidthBytesPerPs ≤ done d := by
  have hpos := s.bandwidth_pos
  have hnonneg : (0 : ℚ) ≤ d.bytesRequested := by exact_mod_cast hbytes d hd
  cases hmode : s.qosMode with
  | equalShare =>
    have hlength : (1 : ℚ) ≤ demands.length := by
      exact_mod_cast List.length_pos_of_mem hd
    have hceil := Int.le_ceil ((demands.length : ℚ) * d.bytesRequested / s.bandwidthBytesPerPs)
    have hle : (d.bytesRequested : ℚ) / s.bandwidthBytesPerPs ≤
        demands.length * d.bytesRequested / s.bandwidthBytesPerPs := by
      gcongr
      exact le_mul_of_one_le_left hnonneg hlength
    rw [h.equal hmode d hd, transferPs_share (hbytes d hd), Int.cast_add]
    linarith
  | strictPriority =>
    have hlower := ((h.strict hmode).1 d hd).1
    rw [transferPs_of_nonneg (hbytes d hd)] at hlower
    have hceil := Int.le_ceil ((d.bytesRequested : ℚ) / s.bandwidthBytesPerPs)
    have hcast : (nowPs : ℚ) + ⌈(d.bytesRequested : ℚ) / s.bandwidthBytesPerPs⌉ ≤ done d := by
      exact_mod_cast hlower
    linarith

/-- Equal shares complete in order of the demands. -/
private theorem CompletesAll.ordered (h : s.CompletesAll demands nowPs done)
    (hmode : s.qosMode = .equalShare) (hbytes : ∀ d ∈ demands, 0 ≤ d.bytesRequested)
    {d e : ByteDemand} (hd : d ∈ demands) (he : e ∈ demands)
    (hle : d.bytesRequested ≤ e.bytesRequested) : done d ≤ done e := by
  have hpos := s.bandwidth_pos
  have hcast : (d.bytesRequested : ℚ) ≤ e.bytesRequested := by exact_mod_cast hle
  rw [h.equal hmode d hd, h.equal hmode e he, transferPs_share (hbytes d hd),
    transferPs_share (hbytes e he)]
  gcongr

/-- The last member completes when all bytes are through, up to a picosecond for each. -/
def LastOnTime (s : ByteServer) (demands : List ByteDemand) (nowPs : ℤ)
    (done : ByteDemand → ℤ) : Prop :=
  ∃ d ∈ demands, (∀ e ∈ demands, done e ≤ done d) ∧
    |(done d : ℚ) - (nowPs + requestedBytes demands / s.bandwidthBytesPerPs)| ≤ demands.length

private theorem CompletesAll.lastOnTime_of_strict (h : s.CompletesAll demands nowPs done)
    (hmode : s.qosMode = .strictPriority) (hbytes : ∀ d ∈ demands, 0 ≤ d.bytesRequested) :
    s.LastOnTime demands nowPs done := by
  obtain ⟨hbounds, d, hd, hlast⟩ := h.strict hmode
  obtain ⟨hlower, hupper⟩ := totalPs_bounds s.bandwidthBytesPerPs hbytes
  have hlength : (0 : ℚ) ≤ demands.length := Nat.cast_nonneg _
  refine ⟨d, hd, fun e he => hlast ▸ (hbounds e he).2, ?_⟩
  rw [hlast, Int.cast_add, abs_le]
  constructor <;> linarith

/-- Equal shares are done on time exactly for even demands. -/
private theorem CompletesAll.lastOnTime_iff_of_equal (h : s.CompletesAll demands nowPs done)
    (hmode : s.qosMode = .equalShare) (hbytes : ∀ d ∈ demands, 0 ≤ d.bytesRequested)
    (hne : demands ≠ []) :
    s.LastOnTime demands nowPs done ↔ EvenDemands demands s.bandwidthBytesPerPs := by
  have hpos := s.bandwidth_pos
  set bandwidth := s.bandwidthBytesPerPs
  have hdone : ∀ d ∈ demands, done d =
      nowPs + ⌈(demands.length : ℚ) * d.bytesRequested / bandwidth⌉ := by
    intro d hd
    rw [h.equal hmode d hd, transferPs_share (hbytes d hd)]
  -- a whole number of picoseconds is at most a time exactly when it is at most its floor
  have hceil : ∀ d ∈ demands,
      ((⌈(demands.length : ℚ) * d.bytesRequested / bandwidth⌉ : ℤ) : ℚ) ≤
          requestedBytes demands / bandwidth + demands.length ↔
        (demands.length : ℚ) * d.bytesRequested ≤
          bandwidth * (⌊(requestedBytes demands : ℚ) / bandwidth⌋ + demands.length) := by
    intro d _
    rw [← Int.le_floor, Int.floor_add_natCast, Int.ceil_le, div_le_iff₀' hpos]
    norm_cast
  constructor
  · rintro ⟨l, hl, hlatest, habs⟩ d hd
    have hle : (done d : ℚ) ≤ done l := by exact_mod_cast hlatest d hd
    have hupper := (abs_le.mp habs).2
    rw [hdone d hd, Int.cast_add] at hle
    exact (hceil d hd).mp (by linarith)
  · intro heven
    obtain ⟨l, hl, hmax⟩ := Set.exists_max_image {d | d ∈ demands} ByteDemand.bytesRequested
      (List.finite_toSet demands) (List.exists_mem_of_ne_nil demands hne)
    refine ⟨l, hl, fun e he => h.ordered hmode hbytes he hl (hmax e he), ?_⟩
    have hupper := (hceil l hl).mpr (heven l hl)
    have hsum : (requestedBytes demands : ℚ) ≤ demands.length * l.bytesRequested := by
      exact_mod_cast requestedBytes_le hmax
    have hlower : (requestedBytes demands : ℚ) / bandwidth ≤
        ⌈(demands.length : ℚ) * l.bytesRequested / bandwidth⌉ :=
      (div_le_div_of_nonneg_right hsum hpos.le).trans (Int.le_ceil _)
    have hlength : (0 : ℚ) ≤ demands.length := Nat.cast_nonneg _
    rw [hdone l hl, Int.cast_add, abs_le]
    constructor <;> linarith

/-- **A byte server is work-conserving in strict priority order, and under equal sharing exactly
for even demands.** The last of the members that are present from one time on completes when
all bytes are through, none before its own bytes are, and equal shares in order. -/
theorem byteServer_work_conserving_iff (hempty : s.members = .empty) (hne : demands ≠ [])
    (hnodup : (demands.map ByteDemand.memberId).Nodup)
    (hbytes : ∀ d ∈ demands, 0 ≤ d.bytesRequested) :
    (∃ s', s.addMembers demands nowPs = .ok s' ∧ s.WorkConserved s' demands nowPs) ↔
      s.qosMode = .strictPriority ∨ EvenDemands demands s.bandwidthBytesPerPs := by
  obtain ⟨members', hok, -, hlast⟩ := addMembers_spec hempty nowPs hnodup hbytes
  obtain ⟨done, hget, hcompletes⟩ := hlast hne
  set s₁ : ByteServer := { s with members := members' }
  have htime : ∀ d ∈ demands, s₁.completionTimePs d.memberId = .ok (done d.memberId) := by
    intro d hd
    simp [s₁, completionTimePs, hget d hd]
  have honTime : s.LastOnTime demands nowPs (fun d => done d.memberId) ↔
      s.qosMode = .strictPriority ∨ EvenDemands demands s.bandwidthBytesPerPs := by
    cases hmode : s.qosMode with
    | equalShare =>
      rw [hcompletes.lastOnTime_iff_of_equal hmode hbytes hne]
      simp
    | strictPriority => simpa using hcompletes.lastOnTime_of_strict hmode hbytes
  rw [← honTime]
  constructor
  · rintro ⟨s', hs', hconserved⟩
    rw [hok] at hs'
    cases hs'
    obtain ⟨latest, ⟨d, hd, hdtime⟩, hlatest, habs⟩ := hconserved.latest
    rw [htime d hd] at hdtime
    cases hdtime
    exact ⟨d, hd, fun e he => hlatest e he _ (htime e he), habs⟩
  · rintro ⟨l, hl, hlatest, habs⟩
    refine ⟨s₁, hok, ⟨done l.memberId, ⟨l, hl, htime l hl⟩, ?_, habs⟩, ?_, ?_⟩
    · intro d hd timePs hdtime
      rw [htime d hd] at hdtime
      cases hdtime
      exact hlatest d hd
    · exact fun d hd => ⟨_, htime d hd, hcompletes.earliest hbytes hd⟩
    · intro hmode d hd e he hle timePs timePs' hdtime hetime
      rw [htime d hd] at hdtime
      rw [htime e he] at hetime
      cases hdtime
      cases hetime
      exact hcompletes.ordered hmode hbytes hd he hle

/-- A server of one byte per picosecond. -/
def sampleServer (qosMode : QosMode) : ByteServer :=
  { name := "mem", bandwidthBytesPerPs := 1, qosMode := qosMode, bandwidth_pos := rfl }

/-- The theorem at two members in strict priority order. -/
theorem byteServer_work_conserving_iff_sample :
    ∃ s', (sampleServer .strictPriority).addMembers [⟨"a", 100, 0⟩, ⟨"b", 20, 1⟩] 5 = .ok s' ∧
      (sampleServer .strictPriority).WorkConserved s' [⟨"a", 100, 0⟩, ⟨"b", 20, 1⟩] 5 :=
  (byteServer_work_conserving_iff rfl (by simp) (by simp) (by simp)).mpr (Or.inl rfl)

/-- Of two equal shares, one has nothing to transfer: the other completes after 200 ps, although
all 100 bytes take 100 ps. -/
theorem equal_share_idles :
    ¬∀ (s : ByteServer) (demands : List ByteDemand) (nowPs : ℤ), s.members = .empty →
      demands ≠ [] → (demands.map ByteDemand.memberId).Nodup →
      (∀ d ∈ demands, 0 ≤ d.bytesRequested) →
      ∃ s', s.addMembers demands nowPs = .ok s' ∧ s.WorkConserved s' demands nowPs := by
  intro h
  obtain ⟨s', hs', hconserved⟩ := h (sampleServer .equalShare) [⟨"a", 100, 0⟩, ⟨"b", 0, 0⟩] 0
    rfl (by simp) (by simp) (by simp)
  have htime : (((sampleServer .equalShare).addMembers [⟨"a", 100, 0⟩, ⟨"b", 0, 0⟩] 0).toOption.any
      fun s' => decide (s'.completionTimePs "a" = .ok 200)) = true := by decide +kernel
  rw [hs'] at htime
  obtain ⟨latest, -, hlatest, habs⟩ := hconserved.latest
  have hlate := hlatest ⟨"a", 100, 0⟩ List.mem_cons_self 200 (of_decide_eq_true htime)
  have hupper := (abs_le.mp habs).2
  have hcast : (200 : ℚ) ≤ latest := by exact_mod_cast hlate
  norm_num [sampleServer, requestedBytes] at hupper
  linarith

end ByteServer

end NpuArc
