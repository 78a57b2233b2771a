import NpuArc.Library.CallSequence
import NpuArc.Scheduler.Queues

/-!
# Runs of the mailbox

Items are put and taken on any number of streams. What a stream answers depends on
the puts since its last take only: the last of them is the pending item, and the
first of them is where its age starts.
-/

namespace NpuArc

variable {T : Type}

/-- The calls of a client of the mailbox. -/
inductive MailboxCall (T : Type)
  | put (streamId : String) (item : T) (nowPs : ℤ)
  | take (streamId : String) (nowPs : ℤ)
  | peek (streamId : String) (nowPs : ℤ)
  | agePs (streamId : String) (nowPs : ℤ)

/-- What the mailbox answers. -/
inductive MailboxAnswer (T : Type)
  | replaced (replaced : Bool)
  | item (item : Option (ℤ × T))
  | age (age : Except Error ℤ)

namespace MailboxLatest

/-- The answer of a call and the mailbox after it. -/
def call (mb : MailboxLatest T) : MailboxCall T → MailboxAnswer T × MailboxLatest T
  | .put streamId item nowPs =>
    (.replaced (mb.put streamId item nowPs).1, (mb.put streamId item nowPs).2)
  | .take streamId nowPs => (.item (mb.take streamId nowPs).1, (mb.take streamId nowPs).2)
  | .peek streamId nowPs => (.item (mb.peek streamId nowPs), mb)
  | .agePs streamId nowPs => (.age (mb.agePs streamId nowPs), mb)

/-- The mailbox as an object, empty at first. -/
def machine (T : Type) (name : String) :
    CallMachine (MailboxLatest T) (MailboxCall T) (MailboxAnswer T) := ⟨{ name := name }, call⟩

/-! ### The history of a run -/

/-- The puts on a stream since its last take, with their times. -/
def sinceTake (calls : List (MailboxCall T)) (streamId : String) : List (T × ℤ) :=
  calls.foldl (fun puts c => match c with
    | .put s item nowPs => if s = streamId then puts ++ [(item, nowPs)] else puts
    | .take s _ => if s = streamId then [] else puts
    | _ => puts) []

/-- The last item put and the time of the first put. -/
def pendingOf (puts : List (T × ℤ)) : Option (ℤ × T) :=
  puts.head?.bind fun first => puts.getLast?.map fun last => (first.2, last.1)

/-- Whether a call puts an item over a pending one. -/
def overwrites (past : List (MailboxCall T)) : MailboxCall T → Bool
  | .put streamId _ _ => !(sinceTake past streamId).isEmpty
  | _ => false

/-- The number of puts over a pending item. -/
def overwriteCount (calls : List (MailboxCall T)) : ℕ :=
  ((List.range calls.length).filter fun i => calls[i]?.any (overwrites (calls.take i))).length

variable {calls : List (MailboxCall T)} {c : MailboxCall T}

theorem sinceTake_put (calls : List (MailboxCall T)) (streamId a : String) (item : T) (nowPs : ℤ) :
    sinceTake (calls ++ [.put streamId item nowPs]) a =
      if streamId = a then sinceTake calls a ++ [(item, nowPs)] else sinceTake calls a := by
  simp [sinceTake, List.foldl_append]

theorem sinceTake_take (calls : List (MailboxCall T)) (streamId a : String) (nowPs : ℤ) :
    sinceTake (calls ++ [.take streamId nowPs]) a =
      if streamId = a then [] else sinceTake calls a := by
  simp [sinceTake, List.foldl_append]

theorem overwriteCount_concat (calls : List (MailboxCall T)) (c : MailboxCall T) :
    overwriteCount (calls ++ [c]) = overwriteCount calls + if overwrites calls c then 1 else 0 := by
  have hpast : ((List.range calls.length).filter fun i =>
      (calls ++ [c])[i]?.any (overwrites ((calls ++ [c]).take i))) =
        (List.range calls.length).filter fun i => calls[i]?.any (overwrites (calls.take i)) := by
    refine List.filter_congr fun i hi => ?_
    have hlt := List.mem_range.mp hi
    rw [List.getElem?_append_left hlt, List.take_append_of_le_length (Nat.le_of_lt hlt)]
  rw [overwriteCount, List.length_append, List.length_singleton, List.range_succ,
    List.filter_append, hpast, List.length_append, overwriteCount, List.filter_singleton]
  cases h : overwrites calls c <;> simp [h]

theorem pendingOf_concat (puts : List (T × ℤ)) (item : T) (nowPs : ℤ) :
    pendingOf (puts ++ [(item, nowPs)]) =
      some ((puts.head?.map Prod.snd).getD nowPs, item) := by
  rw [pendingOf, List.getLast?_concat]
  cases puts <;> rfl

theorem pendingOf_eq_none_iff (puts : List (T × ℤ)) : pendingOf puts = none ↔ puts = [] := by
  cases puts with
  | nil => simp [pendingOf]
  | cons p puts => simp [pendingOf, List.getLast?_cons]

/-! ### The mailbox against its history -/

/-- What the mailbox keeps of a run: for each stream the last item with the first time since
the last take, twice, and the number of replacements. -/
structure Keeps (mb : MailboxLatest T) (calls : List (MailboxCall T)) : Prop where
  pending : ∀ a, mb.pending.get? a = pendingOf (sinceTake calls a)
  arrival : ∀ a p puts, sinceTake calls a = p :: puts → mb.arrivalPs.get? a = some p.2
  count : mb.replacementCount = overwriteCount calls

theorem Keeps.hasPending {mb : MailboxLatest T} (h : Keeps mb calls) (streamId : String) :
    mb.hasPending streamId = !(sinceTake calls streamId).isEmpty := by
  rw [MailboxLatest.hasPending, Dict.contains, h.pending]
  cases hputs : sinceTake calls streamId with
  | nil => rfl
  | cons p puts => simp [pendingOf, List.getLast?_cons]

private theorem Keeps.put {mb : MailboxLatest T} (h : Keeps mb calls) (streamId : String)
    (item : T) (nowPs : ℤ) :
    Keeps (mb.put streamId item nowPs).2 (calls ++ [.put streamId item nowPs]) := by
  have hreplaced := h.hasPending streamId
  unfold MailboxLatest.put
  constructor
  · intro a
    simp only [Dict.get?_insert, sinceTake_put]
    by_cases ha : a = streamId
    · subst ha
      rw [if_pos rfl, if_pos rfl, pendingOf_concat, hreplaced]
      cases hputs : sinceTake calls a with
      | nil => rfl
      | cons p puts =>
        -- the first put of the stream was recorded in the map of arrival times
        have harrival := h.arrival a p puts hputs
        simp [harrival]
    · rw [if_neg ha, if_neg (Ne.symm ha), h.pending]
  · intro a p puts hputs
    rw [sinceTake_put] at hputs
    dsimp only
    rw [hreplaced]
    by_cases ha : streamId = a
    · subst ha
      rw [if_pos rfl] at hputs
      cases hbefore : sinceTake calls streamId with
      | nil =>
        rw [hbefore] at hputs
        cases hputs
        simp
      | cons q before =>
        rw [hbefore] at hputs
        have hfirst : q = p := (List.cons.inj hputs).1
        simpa [hfirst] using h.arrival streamId q before hbefore
    · rw [if_neg ha] at hputs
      have harrival := h.arrival a p puts hputs
      cases (sinceTake calls streamId).isEmpty with
      | false => exact harrival
      | true => simpa [Ne.symm ha] using harrival
  · rw [overwriteCount_concat, overwrites, ← hreplaced, ← h.count]
    dsimp only
    cases mb.hasPending streamId <;> rfl

private theorem Keeps.take {mb : MailboxLatest T} (h : Keeps mb calls) (streamId : String)
    (nowPs : ℤ) : Keeps (mb.take streamId nowPs).2 (calls ++ [.take streamId nowPs]) := by
  have hpending := h.pending streamId
  have hcount : overwriteCount (calls ++ [.take streamId nowPs]) = overwriteCount calls := by
    simp [overwriteCount_concat, overwrites]
  unfold MailboxLatest.take
  cases hget : mb.pending.get? streamId with
  | none =>
    have hnone : sinceTake calls streamId = [] := by
      rw [hget] at hpending
      exact (pendingOf_eq_none_iff _).mp hpending.symm
    have hsame : ∀ a, sinceTake (calls ++ [.take streamId nowPs]) a = sinceTake calls a := by
      intro a
      rw [sinceTake_take]
      split_ifs with ha
      · rw [← ha, hnone]
      · rfl
    constructor <;> simp only [hsame, hcount]
    · exact h.pending
    · exact h.arrival
    · exact h.count
  | some e =>
    constructor
    · intro a
      simp only [Dict.get?_erase, sinceTake_take]
      by_cases ha : a = streamId
      · rw [if_pos ha, if_pos ha.symm]
        rfl
      · rw [if_neg ha, if_neg (Ne.symm ha), h.pending]
    · intro a p puts hputs
      rw [sinceTake_take] at hputs
      split_ifs at hputs
      exact h.arrival a p puts hputs
    · rw [hcount]
      exact h.count

/-- A call that changes nothing is not seen in the history either. -/
private theorem Keeps.same {mb : MailboxLatest T} (h : Keeps mb calls)
    (hputs : ∀ a, sinceTake (calls ++ [c]) a = sinceTake calls a)
    (hover : overwrites calls c = false) : Keeps mb (calls ++ [c]) := by
  constructor <;> simp only [hputs, overwriteCount_concat, hover]
  · exact h.pending
  · exact h.arrival
  · exact h.count

/-- The mailbox keeps the history of every run. -/
theorem keeps (name : String) (calls : List (MailboxCall T)) :
    Keeps ((machine T name).after calls) calls := by
  induction calls using List.reverseRecOn with
  | nil => exact ⟨fun _ => rfl, fun _ _ _ h => absurd h (List.cons_ne_nil _ _).symm, rfl⟩
  | append_singleton calls c ih =>
    rw [CallMachine.after_concat]
    cases c with
    | put streamId item nowPs => exact ih.put streamId item nowPs
    | take streamId nowPs => exact ih.take streamId nowPs
    | peek streamId nowPs => exact ih.same (fun a => by simp [sinceTake, List.foldl_append]) rfl
    | agePs streamId nowPs => exact ih.same (fun a => by simp [sinceTake, List.foldl_append]) rfl

/-- What a mailbox for the latest items answers after a run: takes and peeks return the last item
put since the last take, and every age starts at the first of these puts; at most one item of a
stream is pending, and the replacements are the puts over a pending item. -/
structure KeepsLatest (name : String) (calls : List (MailboxCall T)) : Prop where
  take : ∀ streamId nowPs, (machine T name).answer calls (.take streamId nowPs) =
    .item ((pendingOf (sinceTake calls streamId)).map fun e => (nowPs - e.1, e.2))
  peek : ∀ streamId nowPs, (machine T name).answer calls (.peek streamId nowPs) =
    .item ((pendingOf (sinceTake calls streamId)).map fun e => (nowPs - e.1, e.2))
  age : ∀ streamId nowPs, (machine T name).answer calls (.agePs streamId nowPs) =
    .age ((pendingOf (sinceTake calls streamId)).elim (.error (.keyError streamId))
      fun e => .ok (nowPs - e.1))
  single : ((machine T name).after calls).pending.keys.Nodup ∧
    ∀ streamId, streamId ∈ ((machine T name).after calls).pending.keys ↔
      sinceTake calls streamId ≠ []
  count : ((machine T name).after calls).replacementCount = overwriteCount calls

/-- **The mailbox answers with the latest item and the oldest arrival in every run.** -/
theorem mailbox_keepsLatest (name : String) (calls : List (MailboxCall T)) :
    KeepsLatest name calls := by
  have h := keeps name calls
  set mb := (machine T name).after calls with hmb
  constructor
  · intro streamId nowPs
    have htake : (mb.take streamId nowPs).1 =
        (mb.pending.get? streamId).map fun e => (nowPs - e.1, e.2) := by
      unfold MailboxLatest.take
      cases mb.pending.get? streamId <;> rfl
    rw [← h.pending, ← htake]
    rfl
  · intro streamId nowPs
    rw [← h.pending]
    rfl
  · intro streamId nowPs
    have hpending := h.hasPending streamId
    have hage : (machine T name).answer calls (.agePs streamId nowPs) =
        .age (mb.agePs streamId nowPs) := rfl
    rw [hage, MailboxLatest.agePs, hpending]
    cases hputs : sinceTake calls streamId with
    | nil => rfl
    | cons p puts =>
      rw [h.arrival streamId p puts hputs]
      simp [pendingOf, List.getLast?_cons]
  · refine ⟨mb.pending.keys_nodup, fun streamId => ?_⟩
    rw [ne_eq, ← pendingOf_eq_none_iff, ← h.pending, ← Dict.not_mem_keys, not_not]
  · exact h.count

end MailboxLatest

end NpuArc
