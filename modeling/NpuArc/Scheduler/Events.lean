import NpuArc.Contracts.Errors
import Mathlib.Algebra.GroupWithZero.Nat
import Mathlib.Data.List.Find
import Mathlib.Data.List.Pairwise
import Mathlib.Data.List.Sort
import Mathlib.Data.Prod.Lex

/-!
# Deterministic events

Events are ordered by `(time_ps, phase, insertion sequence)`. The heap of the
event queue is represented by its sorted list of events, which is the order in
which it gives them up. Cancellation only marks a sequence number, and marked
events are skipped when they surface.
-/

namespace NpuArc

/-- Ordered event phases. -/
inductive EventPhase
  | release
  | arrival
  | timer
  | dispatch
  deriving DecidableEq

/-- The integer value of a phase; lower phases are processed earlier. -/
def EventPhase.toNat : EventPhase → ℕ
  | .release => 0
  | .arrival => 1
  | .timer => 2
  | .dispatch => 3

/-- A single deterministic event with an opaque payload. -/
structure Event (π : Type) where
  timePs : ℤ
  phase : EventPhase
  seq : ℕ
  payload : π
  deriving DecidableEq

variable {π : Type}

/-- The canonical deterministic ordering key of an event. -/
def eventKey (event : Event π) : ℤ ×ₗ (ℕ ×ₗ ℕ) :=
  toLex (event.timePs, toLex (event.phase.toNat, event.seq))

/-- The order of two keys, written out. -/
theorem eventKey_le_iff {a b : Event π} :
    eventKey a ≤ eventKey b ↔ a.timePs < b.timePs ∨ (a.timePs = b.timePs ∧
      (a.phase.toNat < b.phase.toNat ∨ (a.phase.toNat = b.phase.toNat ∧ a.seq ≤ b.seq))) := by
  simp [eventKey, Prod.Lex.toLex_le_toLex]

/-- A smaller key is never later in time. -/
theorem timePs_le_of_eventKey_le {a b : Event π} (h : eventKey a ≤ eventKey b) :
    a.timePs ≤ b.timePs := by
  rcases eventKey_le_iff.mp h with h | ⟨h, _⟩
  · exact h.le
  · exact h.le

/-- Events in key order, the next insertion sequence number, and the sequence
numbers marked as cancelled. -/
structure EventQueue (π : Type) where
  /-- The heap, listed in the order in which it is popped. -/
  heap : List (Event π)
  /-- The sequence number of the next insertion. -/
  seq : ℕ
  /-- Sequence numbers of cancelled events that have not surfaced yet. -/
  cancelled : List ℕ
  sorted : heap.Pairwise fun a b => eventKey a ≤ eventKey b
  fresh : ∀ e ∈ heap, e.seq < seq
  distinct : heap.Pairwise fun a b => a.seq ≠ b.seq

namespace EventQueue

/-- The queue without events. -/
def empty : EventQueue π := ⟨[], 0, [], by simp, by simp, by simp⟩

private theorem distinct_orderedInsert {l : List (Event π)} {a : Event π}
    (h : l.Pairwise fun a b => a.seq ≠ b.seq) (ha : ∀ e ∈ l, e.seq < a.seq) :
    (l.orderedInsert (fun a b => eventKey a ≤ eventKey b) a).Pairwise
      fun a b => a.seq ≠ b.seq := by
  refine (List.perm_orderedInsert _ a l).symm.pairwise ?_ fun h => h.symm
  exact List.pairwise_cons.mpr ⟨fun e he => (ha e he).ne', h⟩

/-- Insert an event in key order under the next sequence number. -/
def insert (q : EventQueue π) (timePs : ℤ) (phase : EventPhase) (payload : π) : EventQueue π where
  heap := q.heap.orderedInsert (fun a b => eventKey a ≤ eventKey b)
    ⟨timePs, phase, q.seq, payload⟩
  seq := q.seq + 1
  cancelled := q.cancelled
  sorted := List.Pairwise.orderedInsert _ _ q.sorted
  fresh := by
    intro e he
    rcases (List.mem_orderedInsert _).mp he with rfl | he
    · exact Nat.lt_succ_self _
    · exact Nat.lt_succ_of_lt (q.fresh e he)
  distinct := distinct_orderedInsert q.distinct q.fresh

/-- Push an event and return it with the new queue. -/
def push (q : EventQueue π) (timePs : ℤ) (phase : EventPhase) (payload : π) :
    Except Error (Event π × EventQueue π) :=
  if timePs < 0 then
    .error (.valueError ("event time_ps must be non-negative, got " ++ toString timePs))
  else .ok (⟨timePs, phase, q.seq, payload⟩, q.insert timePs phase payload)

/-- Mark an event as cancelled. Returns whether it was not marked before. -/
def cancel (q : EventQueue π) (event : Event π) : Bool × EventQueue π :=
  if event.seq ∈ q.cancelled then (false, q)
  else (true, { q with cancelled := event.seq :: q.cancelled })

/-- Drop cancelled events from the front of a sorted heap. Returns the first live
event with the rest of the heap, and the cancellations that are still pending. -/
def popLoop : List (Event π) → List ℕ → Option (Event π) × List (Event π) × List ℕ
  | [], cancelled => (none, [], cancelled)
  | event :: heap, cancelled =>
    if event.seq ∈ cancelled then popLoop heap (cancelled.filter (· ≠ event.seq))
    else (some event, heap, cancelled)

theorem popLoop_suffix (heap : List (Event π)) (cancelled : List ℕ) :
    (popLoop heap cancelled).2.1 <:+ heap := by
  induction heap generalizing cancelled with
  | nil => exact List.suffix_refl []
  | cons e heap ih =>
    unfold popLoop
    split
    · exact (ih _).trans (List.suffix_cons e heap)
    · exact List.suffix_cons e heap

/-- Pop the earliest event that is not cancelled, or `none` if there is none. -/
def pop (q : EventQueue π) : Option (Event π) × EventQueue π :=
  ((popLoop q.heap q.cancelled).1,
    { heap := (popLoop q.heap q.cancelled).2.1
      seq := q.seq
      cancelled := (popLoop q.heap q.cancelled).2.2
      sorted := q.sorted.sublist (popLoop_suffix _ _).sublist
      fresh := fun e he => q.fresh e ((popLoop_suffix _ _).subset he)
      distinct := q.distinct.sublist (popLoop_suffix _ _).sublist })

/-- The earliest event that is not cancelled, without removing it. -/
def peek (q : EventQueue π) : Option (Event π) :=
  q.heap.find? fun event => decide (event.seq ∉ q.cancelled)

/-- The number of events in the heap less the number of marks. Python refuses a
negative length. -/
def len (q : EventQueue π) : Except Error ℕ :=
  if q.heap.length < q.cancelled.length then
    .error (.valueError "__len__() should return >= 0")
  else .ok (q.heap.length - q.cancelled.length)

/-- The events that are not cancelled, in sorted order. -/
def iter (q : EventQueue π) : List (Event π) :=
  q.heap.filter fun event => decide (event.seq ∉ q.cancelled)

/-! ### Live events -/

/-- An event is live while it is in the heap and not cancelled. -/
def Live (q : EventQueue π) (e : Event π) : Prop := e ∈ q.heap ∧ e.seq ∉ q.cancelled

/-- Two events of one heap with the same sequence number are the same event. -/
theorem eq_of_seq_eq {q : EventQueue π} {a b : Event π} (ha : a ∈ q.heap) (hb : b ∈ q.heap)
    (h : a.seq = b.seq) : a = b := by
  by_contra hne
  have : Std.Symm fun a b : Event π => a.seq ≠ b.seq := ⟨fun _ _ h => h.symm⟩
  exact q.distinct.forall ha hb hne h

theorem popLoop_fst (heap : List (Event π)) (cancelled : List ℕ)
    (hdistinct : heap.Pairwise fun a b => a.seq ≠ b.seq) :
    (popLoop heap cancelled).1 = heap.find? fun e => decide (e.seq ∉ cancelled) := by
  induction heap generalizing cancelled with
  | nil => rfl
  | cons e heap ih =>
    obtain ⟨hne, hdistinct⟩ := List.pairwise_cons.mp hdistinct
    unfold popLoop
    by_cases h : e.seq ∈ cancelled
    · rw [if_pos h, ih _ hdistinct, List.find?_cons_of_neg (by simp [h])]
      apply List.find?_congr
      intro b hb
      have hb' : b.seq ≠ e.seq := (hne b hb).symm
      simp [hb']
    · rw [if_neg h, List.find?_cons_of_pos (by simp [h])]

/-- Peeking returns the event that popping would return. -/
theorem peek_eq_pop (q : EventQueue π) : q.peek = q.pop.1 :=
  (popLoop_fst q.heap q.cancelled q.distinct).symm

/-- The rest of the heap holds the live events after the popped one, and only
cancellations of skipped events are forgotten. -/
theorem popLoop_spec {heap : List (Event π)} {cancelled : List ℕ}
    (hdistinct : heap.Pairwise fun a b => a.seq ≠ b.seq)
    {ev : Event π} (h : (popLoop heap cancelled).1 = some ev) :
    ev ∈ heap ∧ ev.seq ∉ cancelled ∧
      ((popLoop heap cancelled).2.2 ⊆ cancelled) ∧
      ∀ e, (e ∈ (popLoop heap cancelled).2.1 ∧ e.seq ∉ (popLoop heap cancelled).2.2) ↔
        (e ∈ heap ∧ e.seq ∉ cancelled) ∧ e ≠ ev := by
  induction heap generalizing cancelled with
  | nil => simp [popLoop] at h
  | cons a heap ih =>
    obtain ⟨hne, hdistinct⟩ := List.pairwise_cons.mp hdistinct
    unfold popLoop at h ⊢
    by_cases ha : a.seq ∈ cancelled
    · rw [if_pos ha] at h ⊢
      obtain ⟨hmem, hseq, hsub, hlive⟩ := ih hdistinct h
      have hev : ev.seq ≠ a.seq := (hne ev hmem).symm
      refine ⟨List.mem_cons_of_mem a hmem, ?_, fun n hn => List.mem_of_mem_filter (hsub hn), ?_⟩
      · simpa [hev] using hseq
      · intro e
        rw [hlive e]
        simp only [List.mem_filter, decide_eq_true_eq, not_and, not_not, List.mem_cons]
        constructor
        · rintro ⟨⟨he, hs⟩, hx⟩
          have hes : e.seq ≠ a.seq := (hne e he).symm
          exact ⟨⟨Or.inr he, fun hc => hes (hs hc)⟩, hx⟩
        · rintro ⟨⟨rfl | he, hs⟩, hx⟩
          · exact absurd ha hs
          · exact ⟨⟨he, fun hc => absurd hc hs⟩, hx⟩
    · rw [if_neg ha] at h ⊢
      cases h
      refine ⟨List.mem_cons_self, ha, fun _ h => h, ?_⟩
      intro e
      simp only [List.mem_cons]
      constructor
      · rintro ⟨he, hs⟩
        refine ⟨⟨Or.inr he, hs⟩, ?_⟩
        rintro rfl
        exact hne e he rfl
      · rintro ⟨⟨rfl | he, hs⟩, hx⟩
        · exact absurd rfl hx
        · exact ⟨he, hs⟩

/-- The popped event was live and the others stay live. -/
theorem pop_spec {q q' : EventQueue π} {ev : Event π} (h : q.pop = (some ev, q')) :
    q.Live ev ∧ (∀ e, q'.Live e ↔ q.Live e ∧ e ≠ ev) ∧ q'.seq = q.seq ∧
      q'.cancelled ⊆ q.cancelled := by
  simp only [pop, Prod.mk.injEq] at h
  obtain ⟨hfst, rfl⟩ := h
  obtain ⟨hmem, hseq, hsub, hlive⟩ := popLoop_spec q.distinct hfst
  exact ⟨⟨hmem, hseq⟩, hlive, rfl, hsub⟩

/-- The popped event has the least key of all live events. -/
theorem pop_least {q q' : EventQueue π} {ev e : Event π} (h : q.pop = (some ev, q'))
    (he : q.Live e) : eventKey ev ≤ eventKey e := by
  have hpeek : q.heap.find? (fun event => decide (event.seq ∉ q.cancelled)) = some ev := by
    have hp := peek_eq_pop q
    rw [h] at hp
    exact hp
  obtain ⟨_, l₁, l₂, hheap, hbefore⟩ := List.find?_eq_some_iff_append.mp hpeek
  have hsorted := q.sorted
  have hmem := he.1
  rw [hheap] at hsorted hmem
  rcases List.mem_append.mp hmem with hm | hm
  · have hc := hbefore e hm
    simp only [Bool.not_eq_true', decide_eq_false_iff_not, not_not] at hc
    exact absurd hc he.2
  · rcases List.mem_cons.mp hm with rfl | hm
    · exact le_rfl
    · exact (List.pairwise_cons.mp (List.pairwise_append.mp hsorted).2.1).1 e hm

/-- Insertion adds one live event, as long as its sequence number is not marked. -/
theorem insert_live {q : EventQueue π} {timePs : ℤ} {phase : EventPhase} {payload : π}
    (hc : ∀ n ∈ q.cancelled, n < q.seq) {e : Event π} :
    (q.insert timePs phase payload).Live e ↔
      e = ⟨timePs, phase, q.seq, payload⟩ ∨ q.Live e := by
  simp only [Live, insert, List.mem_orderedInsert]
  constructor
  · rintro ⟨rfl | he, hs⟩
    · exact Or.inl rfl
    · exact Or.inr ⟨he, hs⟩
  · rintro (rfl | ⟨he, hs⟩)
    · exact ⟨Or.inl rfl, fun hn => lt_irrefl _ (hc _ hn)⟩
    · exact ⟨Or.inr he, hs⟩

/-- Cancelling a live event removes it and no other live event. -/
theorem cancel_live {q : EventQueue π} {ev e : Event π} (hev : ev ∈ q.heap) :
    (q.cancel ev).2.Live e ↔ q.Live e ∧ e ≠ ev := by
  unfold cancel Live
  split
  · next h =>
    constructor
    · rintro ⟨he, hs⟩
      exact ⟨⟨he, hs⟩, fun heq => hs (heq ▸ h)⟩
    · rintro ⟨he, _⟩
      exact he
  · simp only [List.mem_cons, not_or]
    constructor
    · rintro ⟨he, hne, hs⟩
      exact ⟨⟨he, hs⟩, fun heq => hne (heq ▸ rfl)⟩
    · rintro ⟨⟨he, hs⟩, hne⟩
      exact ⟨he, fun hseq => hne (eq_of_seq_eq he hev hseq), hs⟩

/-! ### The iterator and the length -/

theorem mem_iter {q : EventQueue π} {e : Event π} : e ∈ q.iter ↔ q.Live e := by
  simp [iter, Live]

theorem iter_nodup (q : EventQueue π) : q.iter.Nodup := by
  refine List.Pairwise.sublist List.filter_sublist (q.distinct.imp ?_)
  intro a b hseq heq
  exact hseq (congrArg Event.seq heq)

/-- Popping and peeking look at the head of the iterator. -/
theorem pop_fst (q : EventQueue π) : q.pop.1 = q.iter.head? := by
  rw [← peek_eq_pop, peek, iter, List.head?_filter]

private theorem filter_popLoop {heap : List (Event π)} {cancelled : List ℕ}
    (hdistinct : heap.Pairwise fun a b => a.seq ≠ b.seq) :
    (popLoop heap cancelled).2.1.filter
        (fun e => decide (e.seq ∉ (popLoop heap cancelled).2.2)) =
      (heap.filter fun e => decide (e.seq ∉ cancelled)).tail := by
  induction heap generalizing cancelled with
  | nil => rfl
  | cons a heap ih =>
    obtain ⟨hne, hdistinct⟩ := List.pairwise_cons.mp hdistinct
    unfold popLoop
    by_cases ha : a.seq ∈ cancelled
    · rw [if_pos ha, ih hdistinct, List.filter_cons_of_neg (by simp [ha])]
      congr 1
      apply List.filter_congr
      intro b hb
      have hb' : b.seq ≠ a.seq := (hne b hb).symm
      simp [hb']
    · rw [if_neg ha, List.filter_cons_of_pos (by simp [ha]), List.tail_cons]

/-- Popping leaves the rest of the iterator. -/
theorem iter_pop (q : EventQueue π) : q.pop.2.iter = q.iter.tail := filter_popLoop q.distinct

theorem popLoop_cancelled (heap : List (Event π)) (cancelled : List ℕ) :
    (popLoop heap cancelled).2.2.Sublist cancelled := by
  induction heap generalizing cancelled with
  | nil => exact List.Sublist.refl cancelled
  | cons a heap ih =>
    unfold popLoop
    split
    · exact (ih _).trans List.filter_sublist
    · exact List.Sublist.refl cancelled

/-- Every mark is on an event of the heap. -/
def MarksQueued (q : EventQueue π) : Prop := ∀ n ∈ q.cancelled, ∃ e ∈ q.heap, e.seq = n

private theorem marksQueued_popLoop {heap : List (Event π)} {cancelled : List ℕ}
    (h : ∀ n ∈ cancelled, ∃ e ∈ heap, e.seq = n) :
    ∀ n ∈ (popLoop heap cancelled).2.2, ∃ e ∈ (popLoop heap cancelled).2.1, e.seq = n := by
  induction heap generalizing cancelled with
  | nil => exact h
  | cons a heap ih =>
    unfold popLoop
    by_cases ha : a.seq ∈ cancelled
    · rw [if_pos ha]
      apply ih
      intro n hn
      obtain ⟨hmem, hne⟩ := List.mem_filter.mp hn
      obtain ⟨e, he, hseq⟩ := h n hmem
      rcases List.mem_cons.mp he with rfl | he
      · exact absurd hseq.symm (of_decide_eq_true hne)
      · exact ⟨e, he, hseq⟩
    · rw [if_neg ha]
      intro n hn
      obtain ⟨e, he, hseq⟩ := h n hn
      rcases List.mem_cons.mp he with rfl | he
      · exact absurd (hseq ▸ hn) ha
      · exact ⟨e, he, hseq⟩

/-- Popping drops the marks of the events that it drops. -/
theorem MarksQueued.pop {q : EventQueue π} (h : q.MarksQueued) : q.pop.2.MarksQueued :=
  marksQueued_popLoop h

/-- As long as every mark is on an event of the heap, the length is the number of
events that the iterator goes through. -/
theorem MarksQueued.len_eq {q : EventQueue π} (h : q.MarksQueued) (hnodup : q.cancelled.Nodup) :
    q.len = .ok q.iter.length := by
  have hmarked : ((q.heap.filter fun e => decide (e.seq ∈ q.cancelled)).map Event.seq).Perm
      q.cancelled := by
    rw [List.perm_ext_iff_of_nodup _ hnodup]
    · intro n
      simp only [List.mem_map, List.mem_filter, decide_eq_true_eq]
      constructor
      · rintro ⟨e, ⟨-, he⟩, rfl⟩
        exact he
      · intro hn
        obtain ⟨e, he, rfl⟩ := h n hn
        exact ⟨e, ⟨he, hn⟩, rfl⟩
    · exact List.pairwise_map.mpr (q.distinct.sublist List.filter_sublist)
  have hlength := hmarked.length_eq
  rw [List.length_map] at hlength
  have hsplit := List.length_eq_length_filter_add (l := q.heap)
    fun e => decide (e.seq ∈ q.cancelled)
  have hiter : q.iter.length = (q.heap.filter fun e => !decide (e.seq ∈ q.cancelled)).length := by
    simp [iter]
  have hlt : ¬q.heap.length < q.cancelled.length := by omega
  rw [len, if_neg hlt]
  congr 1
  omega

/-! ### The weight of a queue -/

/-- The total weight of the events in the heap. -/
def weight (q : EventQueue π) (w : Event π → ℕ) : ℕ := (q.heap.map w).sum

theorem weight_insert (q : EventQueue π) (w : Event π → ℕ) (timePs : ℤ) (phase : EventPhase)
    (payload : π) :
    (q.insert timePs phase payload).weight w = q.weight w + w ⟨timePs, phase, q.seq, payload⟩ := by
  have hperm : (q.insert timePs phase payload).heap.Perm
      (⟨timePs, phase, q.seq, payload⟩ :: q.heap) := List.perm_orderedInsert _ _ _
  unfold weight
  rw [(hperm.map w).sum_nat, List.map_cons, List.sum_cons, Nat.add_comm]

@[simp] theorem weight_cancel (q : EventQueue π) (w : Event π → ℕ) (event : Event π) :
    (q.cancel event).2.weight w = q.weight w := by
  unfold cancel
  split <;> rfl

private theorem weight_popLoop {w : Event π → ℕ} {heap : List (Event π)} {cancelled : List ℕ}
    {ev : Event π} (h : (popLoop heap cancelled).1 = some ev) :
    ((popLoop heap cancelled).2.1.map w).sum + w ev ≤ (heap.map w).sum := by
  induction heap generalizing cancelled with
  | nil => cases h
  | cons e heap ih =>
    unfold popLoop at h ⊢
    rw [List.map_cons, List.sum_cons]
    split_ifs at h ⊢ with hcancelled
    · have hrest := ih h
      omega
    · cases h
      exact (Nat.add_comm _ _).le

/-- Popping an event takes its weight from the queue. -/
theorem weight_pop {q q' : EventQueue π} {ev : Event π} (w : Event π → ℕ)
    (h : q.pop = (some ev, q')) : q'.weight w + w ev ≤ q.weight w := by
  simp only [pop, Prod.mk.injEq] at h
  obtain ⟨hfirst, rfl⟩ := h
  exact weight_popLoop hfirst

end EventQueue

end NpuArc
