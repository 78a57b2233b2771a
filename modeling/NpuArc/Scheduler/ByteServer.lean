import NpuArc.Contracts.Errors
import NpuArc.Library.Dict
import Mathlib.Algebra.Order.Archimedean.Basic
import Mathlib.Algebra.Order.BigOperators.Group.List
import Mathlib.Algebra.Order.Floor.Ring
import Mathlib.Algebra.Order.Ring.Rat
import Mathlib.Data.List.Sort
import Mathlib.Data.Prod.Lex
import Mathlib.Data.Rat.Floor
import Mathlib.Data.String.Basic

/-!
# Byte servers

A byte server shares a bandwidth among its members, equally or in strict order of
priority. Whenever a member is added, the completion time of every member is
computed again from its remaining bytes. Bandwidths are exact rationals.
-/

namespace NpuArc

/-- How a byte server shares its bandwidth. -/
inductive QosMode
  | equalShare
  | strictPriority
  deriving DecidableEq

/-- A member of a byte server. -/
structure ByteMember where
  bytesRemaining : ℤ
  priority : ℤ
  /-- The absolute completion time, once it was computed. -/
  completionPs : Option ℤ := none

/-- A server with a positive bandwidth in bytes per picosecond. -/
structure ByteServer where
  name : String
  bandwidthBytesPerPs : ℚ
  qosMode : QosMode := .equalShare
  members : Dict String ByteMember := .empty
  bandwidth_pos : 0 < bandwidthBytesPerPs

/-- The remaining bytes of a member. -/
def bytesOf (members : Dict String ByteMember) (memberId : String) : ℤ :=
  (members.get? memberId).elim 0 ByteMember.bytesRemaining

/-- The priority of a member. -/
def priorityOf (members : Dict String ByteMember) (memberId : String) : ℤ :=
  (members.get? memberId).elim 0 ByteMember.priority

/-- The time of a transfer in whole picoseconds. -/
def transferPs (bytes : ℤ) (bandwidth : ℚ) : ℤ :=
  if 0 < bytes then ⌈(bytes : ℚ) / bandwidth⌉ else 0

/-- A member that gets a completion time and keeps its demand. -/
def ByteMember.completedAt (timePs : ℤ) (m : ByteMember) : ByteMember :=
  { m with completionPs := some timePs }

@[simp] theorem ByteMember.completedAt_completedAt (timePs timePs' : ℤ) (m : ByteMember) :
    (m.completedAt timePs).completedAt timePs' = m.completedAt timePs' := rfl

/-- Store the completion time of a member. -/
def setCompletion (members : Dict String ByteMember) (memberId : String) (timePs : ℤ) :
    Dict String ByteMember :=
  members.modify memberId (.completedAt timePs)

/-- Every listed member runs at the same share from now on. -/
def serveEqually (share : ℚ) (nowPs : ℤ) (members : Dict String ByteMember) (ids : List String) :
    Dict String ByteMember :=
  ids.foldl (fun members memberId =>
    setCompletion members memberId (nowPs + transferPs (bytesOf members memberId) share)) members

/-- The listed members run one after the other at full bandwidth. -/
def serveInTurn (bandwidth : ℚ) (nowPs : ℤ) :
    Dict String ByteMember → ℤ → List String → Dict String ByteMember
  | members, _, [] => members
  | members, elapsed, memberId :: ids =>
    let duration := transferPs (bytesOf members memberId) bandwidth
    serveInTurn bandwidth nowPs
      (setCompletion members memberId (nowPs + elapsed + duration)) (elapsed + duration) ids

namespace ByteServer

/-- A server without members; the bandwidth must be positive. -/
def new (name : String) (bandwidthBytesPerPs : ℚ) (qosMode : QosMode) : Except Error ByteServer :=
  if h : 0 < bandwidthBytesPerPs then .ok { name, bandwidthBytesPerPs, qosMode, bandwidth_pos := h }
  else .error (.resourceError ("byte server " ++ reprStr name ++
    " bandwidth must be positive") name)

/-- Compute the completion times of all members. -/
def recompute (s : ByteServer) (nowPs : ℤ) : Except Error ByteServer :=
  if s.members.size = 0 then .ok s
  else match s.qosMode with
    | .equalShare =>
      let share := s.bandwidthBytesPerPs / s.members.size
      if share ≤ 0 then
        .error (.resourceError "equal-share bandwidth per member became non-positive" s.name)
      else .ok { s with
        members := serveEqually share nowPs s.members (s.members.keys.insertionSort (· ≤ ·)) }
    | .strictPriority =>
      let ordered := s.members.keys.insertionSort fun a b =>
        toLex (-priorityOf s.members a, a) ≤ toLex (-priorityOf s.members b, b)
      .ok { s with members := serveInTurn s.bandwidthBytesPerPs nowPs s.members 0 ordered }

/-- The absolute completion time of a member. -/
def completionTimePs (s : ByteServer) (memberId : String) : Except Error ℤ :=
  match s.members.get? memberId with
  | none => .error (.resourceError ("unknown member " ++ reprStr memberId) s.name)
  | some m =>
    match m.completionPs with
    | none => .error (.keyError "completion_ps")
    | some timePs => .ok timePs

/-- Add a member. Returns its completion time. -/
def addMember (s : ByteServer) (memberId : String) (bytesRequested priority nowPs : ℤ) :
    Except Error (ℤ × ByteServer) :=
  if bytesRequested < 0 then
    .error (.resourceError ("bytes_requested must be non-negative, got " ++
      toString bytesRequested) s.name)
  else do
    let s ← recompute
      { s with members := s.members.insert memberId { bytesRemaining := bytesRequested, priority } }
      nowPs
    let timePs ← s.completionTimePs memberId
    return (timePs, s)

end ByteServer

/-! ### Completion times -/

theorem keys_setCompletion (members : Dict String ByteMember) (memberId : String) (timePs : ℤ) :
    (setCompletion members memberId timePs).keys = members.keys := Dict.keys_modify ..

theorem get?_setCompletion (members : Dict String ByteMember) (memberId a : String) (timePs : ℤ) :
    (setCompletion members memberId timePs).get? a =
      if a = memberId then (members.get? memberId).map (.completedAt timePs)
      else members.get? a := Dict.get?_modify ..

@[simp] theorem bytesOf_setCompletion (members : Dict String ByteMember) (memberId a : String)
    (timePs : ℤ) : bytesOf (setCompletion members memberId timePs) a = bytesOf members a := by
  unfold bytesOf
  rw [get?_setCompletion]
  split_ifs with h
  · subst h
    cases members.get? a <;> rfl
  · rfl

theorem transferPs_of_nonneg {bytes : ℤ} (h : 0 ≤ bytes) (bandwidth : ℚ) :
    transferPs bytes bandwidth = ⌈(bytes : ℚ) / bandwidth⌉ := by
  unfold transferPs
  split_ifs with hpos
  · rfl
  · rw [le_antisymm (not_lt.mp hpos) h, Int.cast_zero, zero_div, Int.ceil_zero]

theorem transferPs_nonneg (bytes : ℤ) {bandwidth : ℚ} (h : 0 < bandwidth) :
    0 ≤ transferPs bytes bandwidth := by
  unfold transferPs
  split_ifs with hpos
  · exact Int.ceil_nonneg (div_nonneg (by exact_mod_cast hpos.le) h.le)
  · exact le_rfl

theorem get?_serveEqually (share : ℚ) (nowPs : ℤ) (members : Dict String ByteMember)
    (ids : List String) (a : String) :
    (serveEqually share nowPs members ids).get? a =
      if a ∈ ids then
        (members.get? a).map (.completedAt (nowPs + transferPs (bytesOf members a) share))
      else members.get? a := by
  induction ids generalizing members with
  | nil => rfl
  | cons memberId ids ih =>
    change (serveEqually share nowPs (setCompletion members memberId _) ids).get? a = _
    rw [ih, bytesOf_setCompletion, get?_setCompletion]
    by_cases ha : a = memberId
    · subst ha
      cases members.get? a <;> simp
    · simp [ha]

theorem keys_serveEqually (share : ℚ) (nowPs : ℤ) (members : Dict String ByteMember)
    (ids : List String) : (serveEqually share nowPs members ids).keys = members.keys := by
  induction ids generalizing members with
  | nil => rfl
  | cons memberId ids ih =>
    change (serveEqually share nowPs (setCompletion members memberId _) ids).keys = _
    rw [ih, keys_setCompletion]

theorem keys_serveInTurn (bandwidth : ℚ) (nowPs : ℤ) (members : Dict String ByteMember)
    (elapsed : ℤ) (ids : List String) :
    (serveInTurn bandwidth nowPs members elapsed ids).keys = members.keys := by
  induction ids generalizing members elapsed with
  | nil => rfl
  | cons memberId ids ih => rw [serveInTurn, ih, keys_setCompletion]

theorem get?_serveInTurn_of_not_mem {bandwidth : ℚ} {nowPs elapsed : ℤ}
    {members : Dict String ByteMember} {ids : List String} {a : String} (h : a ∉ ids) :
    (serveInTurn bandwidth nowPs members elapsed ids).get? a = members.get? a := by
  induction ids generalizing members elapsed with
  | nil => rfl
  | cons memberId ids ih =>
    rw [List.mem_cons, not_or] at h
    obtain ⟨hne, hrest⟩ := h
    rw [serveInTurn, ih hrest, get?_setCompletion, if_neg hne]

/-- Members served in turn complete after their own transfer, and the last of them when all
transfers are done. -/
theorem serveInTurn_spec {bandwidth : ℚ} (hbandwidth : 0 < bandwidth) (nowPs elapsed : ℤ)
    (members : Dict String ByteMember) {ids : List String} (hnodup : ids.Nodup) :
    ∃ done : String → ℤ,
      (∀ a ∈ ids, (serveInTurn bandwidth nowPs members elapsed ids).get? a =
        (members.get? a).map (.completedAt (done a))) ∧
      (∀ a ∈ ids, nowPs + elapsed + transferPs (bytesOf members a) bandwidth ≤ done a ∧
        done a ≤ nowPs + elapsed +
          (ids.map fun b => transferPs (bytesOf members b) bandwidth).sum) ∧
      (ids ≠ [] → ∃ a ∈ ids, done a = nowPs + elapsed +
        (ids.map fun b => transferPs (bytesOf members b) bandwidth).sum) := by
  induction ids generalizing members elapsed with
  | nil => exact ⟨fun _ => 0, by simp, by simp, fun h => absurd rfl h⟩
  | cons memberId ids ih =>
    obtain ⟨hnew, hnodup⟩ := List.nodup_cons.mp hnodup
    set duration := transferPs (bytesOf members memberId) bandwidth with hduration
    have hnonneg : 0 ≤ duration := transferPs_nonneg _ hbandwidth
    obtain ⟨done, hget, hbounds, hlast⟩ := ih (elapsed + duration)
      (setCompletion members memberId (nowPs + elapsed + duration)) hnodup
    simp only [bytesOf_setCompletion] at hbounds hlast
    have hne : ∀ a ∈ ids, a ≠ memberId := fun a ha heq => hnew (heq ▸ ha)
    refine ⟨fun a => if a = memberId then nowPs + elapsed + duration else done a, ?_, ?_, ?_⟩
    · intro a ha
      rw [serveInTurn, ← hduration]
      dsimp only
      rcases List.mem_cons.mp ha with rfl | ha
      · rw [get?_serveInTurn_of_not_mem hnew, get?_setCompletion, if_pos rfl, if_pos rfl]
      · rw [hget a ha, get?_setCompletion, if_neg (hne a ha), if_neg (hne a ha)]
    · intro a ha
      rw [List.map_cons, List.sum_cons, ← hduration]
      have hsum : 0 ≤ (ids.map fun b => transferPs (bytesOf members b) bandwidth).sum := by
        refine List.sum_nonneg ?_
        intro t ht
        obtain ⟨b, -, rfl⟩ := List.mem_map.mp ht
        exact transferPs_nonneg _ hbandwidth
      rcases List.mem_cons.mp ha with rfl | ha
      · dsimp only
        rw [if_pos rfl]
        omega
      · obtain ⟨hlower, hupper⟩ := hbounds a ha
        dsimp only
        rw [if_neg (hne a ha)]
        omega
    · intro _
      rw [List.map_cons, List.sum_cons, ← hduration]
      cases ids with
      | nil => exact ⟨memberId, List.mem_cons_self, by simp⟩
      | cons b ids =>
        obtain ⟨a, ha, heq⟩ := hlast (List.cons_ne_nil b ids)
        refine ⟨a, List.mem_cons_of_mem memberId ha, ?_⟩
        dsimp only
        rw [if_neg (hne a ha), heq]
        omega

end NpuArc
