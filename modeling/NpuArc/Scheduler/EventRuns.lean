import NpuArc.Library.CallSequence
import NpuArc.Scheduler.Events
import Mathlib.Data.Set.Card

/-!
# Runs of the event queue

A client pushes events, cancels events that it was handed, pops and peeks in any
order. An event is live from its push until it is popped or cancelled. The queue
is compared with this set of live events, which is read off the calls and their
answers alone.
-/

namespace NpuArc

variable {π : Type}

/-- The calls of a client of the event queue. -/
inductive QueueCall (π : Type)
  | push (timePs : ℤ) (phase : EventPhase) (payload : π)
  | cancel (event : Event π)
  | pop
  | peek

/-- What the event queue answers. -/
inductive QueueAnswer (π : Type)
  | pushed (event : Event π)
  | raised (error : Error)
  | cancelled (done : Bool)
  | event (event : Option (Event π))

/-- The answer of a call and the queue after it. -/
def EventQueue.call (q : EventQueue π) : QueueCall π → QueueAnswer π × EventQueue π
  | .push timePs phase payload =>
    match q.push timePs phase payload with
    | .ok (event, q) => (.pushed event, q)
    | .error error => (.raised error, q)
  | .cancel event => (.cancelled (q.cancel event).1, (q.cancel event).2)
  | .pop => (.event q.pop.1, q.pop.2)
  | .peek => (.event q.peek, q)

/-- The event queue as an object, empty at first. -/
def eventQueue (π : Type) : CallMachine (EventQueue π) (QueueCall π) (QueueAnswer π) :=
  ⟨.empty, EventQueue.call⟩

namespace EventQueue

/-! ### The history of a run -/

/-- A push answered with the event. -/
def Pushed (calls : List (QueueCall π)) (e : Event π) : Prop :=
  ∃ c, (c, .pushed e) ∈ (eventQueue π).trace calls

/-- A pop answered with the event. -/
def Popped (calls : List (QueueCall π)) (e : Event π) : Prop :=
  (.pop, .event (some e)) ∈ (eventQueue π).trace calls

/-- A call cancelled the event. -/
def Cancelled (calls : List (QueueCall π)) (e : Event π) : Prop := .cancel e ∈ calls

/-- An event is live when it was pushed, and neither popped nor cancelled. -/
def LiveAfter (calls : List (QueueCall π)) (e : Event π) : Prop :=
  Pushed calls e ∧ ¬Popped calls e ∧ ¬Cancelled calls e

/-- A client cancels events that it pushed before. -/
def CancelsPushed (past : List (QueueCall π)) (c : QueueCall π) : Prop :=
  ∀ e, c = .cancel e → Pushed past e

/-- A client cancels events that are in the heap: neither popped, nor cancelled and
skipped by a pop since. -/
def CancelsQueued (past : List (QueueCall π)) (c : QueueCall π) : Prop :=
  ∀ e, c = .cancel e → e ∈ ((eventQueue π).after past).heap

/-- A cancellation answers whether the event was live. -/
def CancelsTruly (past : List (QueueCall π)) (c : QueueCall π) : Prop :=
  ∀ e, c = .cancel e → ((eventQueue π).answer past c = .cancelled true ↔ LiveAfter past e)

variable {calls : List (QueueCall π)} {c : QueueCall π} {e : Event π}

theorem pushed_concat :
    Pushed (calls ++ [c]) e ↔ Pushed calls e ∨ (eventQueue π).answer calls c = .pushed e := by
  simp only [Pushed, CallMachine.trace_concat, List.mem_append, List.mem_singleton, Prod.mk.injEq]
  constructor
  · rintro ⟨d, h | ⟨-, h⟩⟩
    · exact Or.inl ⟨d, h⟩
    · exact Or.inr h.symm
  · rintro (⟨d, h⟩ | h)
    · exact ⟨d, Or.inl h⟩
    · exact ⟨c, Or.inr ⟨rfl, h.symm⟩⟩

theorem popped_concat :
    Popped (calls ++ [c]) e ↔
      Popped calls e ∨ c = .pop ∧ (eventQueue π).answer calls c = .event (some e) := by
  simp only [Popped, CallMachine.trace_concat, List.mem_append, List.mem_singleton, Prod.mk.injEq]
  rw [eq_comm (a := QueueCall.pop), eq_comm (a := QueueAnswer.event (some e))]

theorem cancelled_concat : Cancelled (calls ++ [c]) e ↔ Cancelled calls e ∨ c = .cancel e := by
  simp only [Cancelled, List.mem_append, List.mem_singleton]
  rw [eq_comm (a := QueueCall.cancel e)]

/-! ### The queue against its history -/

/-- What holds of the queue after every run: its live events are those of the history,
every event it ever held was pushed by the client, and no sequence number is used twice. -/
structure Ledger (calls : List (QueueCall π)) : Prop where
  live : ∀ e, ((eventQueue π).after calls).Live e ↔ LiveAfter calls e
  heap : ∀ e ∈ ((eventQueue π).after calls).heap, Pushed calls e
  popped : ∀ e, Popped calls e → Pushed calls e
  cancelled : ∀ e, Cancelled calls e → Pushed calls e
  fresh : ∀ e, Pushed calls e → e.seq < ((eventQueue π).after calls).seq
  distinct : ∀ a b, Pushed calls a → Pushed calls b → a.seq = b.seq → a = b
  marked : ∀ n ∈ ((eventQueue π).after calls).cancelled, n < ((eventQueue π).after calls).seq
  nodup : ((eventQueue π).after calls).cancelled.Nodup

private theorem ledger_nil : Ledger ([] : List (QueueCall π)) := by
  constructor <;> simp [eventQueue, EventQueue.empty, Live, LiveAfter, Pushed, Popped, Cancelled]

private theorem call_push {q : EventQueue π} {timePs : ℤ} {phase : EventPhase} {payload : π}
    (h : ¬timePs < 0) :
    q.call (.push timePs phase payload) =
      (.pushed ⟨timePs, phase, q.seq, payload⟩, q.insert timePs phase payload) := by
  simp [call, push, h]

/-- A call that changes neither the queue nor the history keeps the ledger. -/
private theorem Ledger.same (h : Ledger calls)
    (hqueue : (eventQueue π).after (calls ++ [c]) = (eventQueue π).after calls)
    (hpushed : ∀ e, Pushed (calls ++ [c]) e ↔ Pushed calls e)
    (hpopped : ∀ e, Popped (calls ++ [c]) e ↔ Popped calls e)
    (hcancelled : ∀ e, Cancelled (calls ++ [c]) e ↔ Cancelled calls e) :
    Ledger (calls ++ [c]) := by
  constructor <;> simp only [hqueue, LiveAfter, hpushed, hpopped, hcancelled]
  · exact h.live
  · exact h.heap
  · exact h.popped
  · exact h.cancelled
  · exact h.fresh
  · exact h.distinct
  · exact h.marked
  · exact h.nodup

private theorem Ledger.push (h : Ledger calls) (timePs : ℤ) (phase : EventPhase) (payload : π) :
    Ledger (calls ++ [.push timePs phase payload]) := by
  have hpopped : ∀ e, Popped (calls ++ [.push timePs phase payload]) e ↔ Popped calls e := by
    simp [popped_concat]
  have hcancelled : ∀ e, Cancelled (calls ++ [.push timePs phase payload]) e ↔
      Cancelled calls e := by
    simp [cancelled_concat]
  by_cases hneg : timePs < 0
  · refine h.same ?_ ?_ hpopped hcancelled
    · simp [eventQueue, call, EventQueue.push, hneg]
    · intro e
      simp [pushed_concat, CallMachine.answer, eventQueue, call, EventQueue.push, hneg]
  · set q := (eventQueue π).after calls with hq
    have hafter : (eventQueue π).after (calls ++ [.push timePs phase payload]) =
        q.insert timePs phase payload := by
      rw [CallMachine.after_concat]
      exact congrArg Prod.snd (call_push hneg)
    have hpushed : ∀ e, Pushed (calls ++ [.push timePs phase payload]) e ↔
        Pushed calls e ∨ e = ⟨timePs, phase, q.seq, payload⟩ := by
      intro e
      have hanswer : (eventQueue π).answer calls (.push timePs phase payload) =
          .pushed ⟨timePs, phase, q.seq, payload⟩ := congrArg Prod.fst (call_push hneg)
      rw [pushed_concat, hanswer, QueueAnswer.pushed.injEq, eq_comm (b := e)]
    have hnew : ¬Pushed calls ⟨timePs, phase, q.seq, payload⟩ :=
      fun hp => lt_irrefl _ (h.fresh _ hp)
    constructor <;> try rw [hafter]
    · intro e
      rw [insert_live h.marked, h.live]
      simp only [LiveAfter, hpushed, hpopped, hcancelled]
      constructor
      · rintro (rfl | ⟨he, hrest⟩)
        · exact ⟨Or.inr rfl, fun hp => hnew (h.popped _ hp), fun hc => hnew (h.cancelled _ hc)⟩
        · exact ⟨Or.inl he, hrest⟩
      · rintro ⟨he | rfl, hrest⟩
        · exact Or.inr ⟨he, hrest⟩
        · exact Or.inl rfl
    · intro e he
      rw [hpushed]
      rcases (List.mem_orderedInsert _).mp he with rfl | he
      · exact Or.inr rfl
      · exact Or.inl (h.heap e he)
    · intro e he
      exact (hpushed e).mpr (Or.inl (h.popped e ((hpopped e).mp he)))
    · intro e he
      exact (hpushed e).mpr (Or.inl (h.cancelled e ((hcancelled e).mp he)))
    · intro e he
      rcases (hpushed e).mp he with he | rfl
      · exact Nat.lt_succ_of_lt (h.fresh e he)
      · exact Nat.lt_succ_self q.seq
    · intro a b ha hb hseq
      rcases (hpushed a).mp ha with ha | rfl <;> rcases (hpushed b).mp hb with hb | rfl
      · exact h.distinct a b ha hb hseq
      · exact absurd hseq (h.fresh a ha).ne
      · exact absurd hseq.symm (h.fresh b hb).ne
      · rfl
    · intro n hn
      exact Nat.lt_succ_of_lt (h.marked n hn)
    · exact h.nodup

private theorem Ledger.cancel (h : Ledger calls) {event : Event π} (hevent : Pushed calls event) :
    Ledger (calls ++ [.cancel event]) := by
  set q := (eventQueue π).after calls with hq
  have hafter : (eventQueue π).after (calls ++ [.cancel event]) = (q.cancel event).2 := by
    rw [CallMachine.after_concat]
    rfl
  have hpushed : ∀ e, Pushed (calls ++ [.cancel event]) e ↔ Pushed calls e := by
    intro e
    simp [pushed_concat, CallMachine.answer, eventQueue, call]
  have hpopped : ∀ e, Popped (calls ++ [.cancel event]) e ↔ Popped calls e := by
    simp [popped_concat]
  have hcancelled : ∀ e, Cancelled (calls ++ [.cancel event]) e ↔
      Cancelled calls e ∨ e = event := by
    intro e
    rw [cancelled_concat, QueueCall.cancel.injEq, eq_comm (b := e)]
  have hheap : (q.cancel event).2.heap = q.heap := by
    unfold EventQueue.cancel
    split <;> rfl
  have hseq : (q.cancel event).2.seq = q.seq := by
    unfold EventQueue.cancel
    split <;> rfl
  have hmarks : ∀ n, n ∈ (q.cancel event).2.cancelled ↔ n = event.seq ∨ n ∈ q.cancelled := by
    intro n
    unfold EventQueue.cancel
    split
    · next hmem =>
      constructor
      · exact Or.inr
      · rintro (rfl | hn)
        · exact hmem
        · exact hn
    · exact List.mem_cons
  constructor <;> try rw [hafter]
  · intro e
    have hlive := h.live e
    simp only [Live, ← hq, hheap, hmarks, LiveAfter, hpushed, hpopped, hcancelled, not_or] at hlive ⊢
    constructor
    · rintro ⟨he, hne, hs⟩
      obtain ⟨hp, hnp, hnc⟩ := hlive.mp ⟨he, hs⟩
      exact ⟨hp, hnp, hnc, fun heq => hne (congrArg Event.seq heq)⟩
    · rintro ⟨hp, hnp, hnc, hne⟩
      obtain ⟨he, hs⟩ := hlive.mpr ⟨hp, hnp, hnc⟩
      exact ⟨he, fun heq => hne (h.distinct e event hp hevent heq), hs⟩
  · intro e he
    exact (hpushed e).mpr (h.heap e (hheap ▸ he))
  · intro e he
    exact (hpushed e).mpr (h.popped e ((hpopped e).mp he))
  · intro e he
    rw [hpushed]
    rcases (hcancelled e).mp he with he | rfl
    · exact h.cancelled e he
    · exact hevent
  · intro e he
    rw [hseq]
    exact h.fresh e ((hpushed e).mp he)
  · intro a b ha hb
    exact h.distinct a b ((hpushed a).mp ha) ((hpushed b).mp hb)
  · intro n hn
    rw [hseq]
    rcases (hmarks n).mp hn with rfl | hn
    · exact h.fresh event hevent
    · exact h.marked n hn
  · unfold EventQueue.cancel
    split
    · exact h.nodup
    · next hmem => exact List.nodup_cons.mpr ⟨hmem, h.nodup⟩

private theorem Ledger.pop (h : Ledger calls) : Ledger (calls ++ [.pop]) := by
  set q := (eventQueue π).after calls with hq
  have hafter : (eventQueue π).after (calls ++ [.pop]) = q.pop.2 := by
    rw [CallMachine.after_concat]
    rfl
  have hpushed : ∀ e, Pushed (calls ++ [.pop]) e ↔ Pushed calls e := by
    intro e
    simp [pushed_concat, CallMachine.answer, eventQueue, call]
  have hpopped : ∀ e, Popped (calls ++ [.pop]) e ↔ Popped calls e ∨ q.iter.head? = some e := by
    intro e
    have hanswer : (eventQueue π).answer calls .pop = .event q.pop.1 := rfl
    rw [popped_concat, hanswer, pop_fst]
    simp
  have hcancelled : ∀ e, Cancelled (calls ++ [.pop]) e ↔ Cancelled calls e := by
    simp [cancelled_concat]
  have hhead : ∀ e, q.iter.head? = some e → LiveAfter calls e := by
    intro e he
    exact (h.live e).mp (mem_iter.mp (List.mem_of_mem_head? he))
  have hlive : ∀ e, q.pop.2.Live e ↔ q.Live e ∧ q.iter.head? ≠ some e := by
    intro e
    have hnodup := q.iter_nodup
    rw [← mem_iter, ← mem_iter, iter_pop]
    cases hiter : q.iter with
    | nil => simp
    | cons a rest =>
      rw [hiter] at hnodup
      have ha := (List.nodup_cons.mp hnodup).1
      simp only [List.tail_cons, List.mem_cons, List.head?_cons, ne_eq, Option.some.injEq]
      constructor
      · intro he
        refine ⟨Or.inr he, ?_⟩
        rintro rfl
        exact ha he
      · rintro ⟨rfl | he, hne⟩
        · exact absurd rfl hne
        · exact he
  constructor <;> try rw [hafter]
  · intro e
    rw [hlive, h.live]
    simp only [LiveAfter, hpushed, hpopped, hcancelled, not_or]
    tauto
  · intro e he
    exact (hpushed e).mpr (h.heap e ((popLoop_suffix _ _).subset he))
  · intro e he
    rw [hpushed]
    rcases (hpopped e).mp he with he | he
    · exact h.popped e he
    · exact (hhead e he).1
  · intro e he
    exact (hpushed e).mpr (h.cancelled e ((hcancelled e).mp he))
  · intro e he
    exact h.fresh e ((hpushed e).mp he)
  · intro a b ha hb
    exact h.distinct a b ((hpushed a).mp ha) ((hpushed b).mp hb)
  · intro n hn
    exact h.marked n ((popLoop_cancelled _ _).subset hn)
  · exact h.nodup.sublist (popLoop_cancelled _ _)

/-- The ledger holds after every run of a client that cancels only what it pushed. -/
theorem ledger (hissued : EachCall CancelsPushed calls) : Ledger calls := by
  refine hissued.induction ledger_nil ?_
  intro past c _ hc h
  cases c with
  | push timePs phase payload => exact h.push timePs phase payload
  | cancel event => exact h.cancel (hc event rfl)
  | pop => exact h.pop
  | peek =>
    refine h.same ?_ ?_ ?_ ?_
    · exact CallMachine.after_concat _ _ _
    · intro e
      simp [pushed_concat, CallMachine.answer, eventQueue, call]
    · simp [popped_concat]
    · simp [cancelled_concat]

/-! ### The queue as a priority queue of its live events -/

/-- The queue answers as a priority queue of the live events: popping and peeking return
the least of them, popping on gives up each of them once and nothing else, the iterator
lists them, and the length counts them. -/
structure ServesLive (calls : List (QueueCall π)) : Prop where
  least : ∃ o, (eventQueue π).answer calls .pop = .event o ∧
    (eventQueue π).answer calls .peek = .event o ∧ (o = none → ∀ e, ¬LiveAfter calls e) ∧
    ∀ e, o = some e → LiveAfter calls e ∧ ∀ e', LiveAfter calls e' → eventKey e ≤ eventKey e'
  drained : ∀ k, (eventQueue π).answer (calls ++ List.replicate k .pop) .pop =
    .event ((eventQueue π).after calls).iter[k]?
  iterated : ((eventQueue π).after calls).iter.Nodup ∧
    ∀ e, e ∈ ((eventQueue π).after calls).iter ↔ LiveAfter calls e
  counted : ((eventQueue π).after calls).len = .ok {e | LiveAfter calls e}.ncard ∧
    ((eventQueue π).after calls).iter.length = {e | LiveAfter calls e}.ncard

private theorem iter_pops (calls : List (QueueCall π)) (k : ℕ) :
    ((eventQueue π).after (calls ++ List.replicate k .pop)).iter =
      ((eventQueue π).after calls).iter.drop k := by
  induction k with
  | zero => simp
  | succ k ih =>
    rw [List.replicate_succ', ← List.append_assoc, CallMachine.after_concat, ← List.tail_drop, ← ih]
    exact iter_pop _

private theorem answer_pops (calls : List (QueueCall π)) (k : ℕ) :
    (eventQueue π).answer (calls ++ List.replicate k .pop) .pop =
      .event ((eventQueue π).after calls).iter[k]? := by
  have hpop : (eventQueue π).answer (calls ++ List.replicate k .pop) .pop =
      .event ((eventQueue π).after (calls ++ List.replicate k .pop)).iter.head? :=
    congrArg QueueAnswer.event (pop_fst _)
  rw [hpop, iter_pops, List.head?_drop]

private theorem Ledger.least (h : Ledger calls) :
    ∃ o, (eventQueue π).answer calls .pop = .event o ∧
      (eventQueue π).answer calls .peek = .event o ∧ (o = none → ∀ e, ¬LiveAfter calls e) ∧
      ∀ e, o = some e →
        LiveAfter calls e ∧ ∀ e', LiveAfter calls e' → eventKey e ≤ eventKey e' := by
  set q := (eventQueue π).after calls with hq
  refine ⟨q.pop.1, rfl, congrArg QueueAnswer.event (peek_eq_pop q), ?_, ?_⟩
  · intro hnone e he
    rw [pop_fst, List.head?_eq_none_iff] at hnone
    have hmem : e ∈ q.iter := mem_iter.mpr ((h.live e).mpr he)
    rw [hnone] at hmem
    exact absurd hmem List.not_mem_nil
  · intro e he
    have hpop : q.pop = (some e, q.pop.2) := Prod.ext he rfl
    refine ⟨(h.live e).mp (pop_spec hpop).1, ?_⟩
    intro e' he'
    exact pop_least hpop ((h.live e').mpr he')

private theorem Ledger.ncard_live (h : Ledger calls) :
    ((eventQueue π).after calls).iter.length = {e | LiveAfter calls e}.ncard := by
  classical
  have hset : {e | LiveAfter calls e} = ((eventQueue π).after calls).iter.toFinset := by
    ext e
    simp only [Set.mem_ofPred_eq, List.coe_toFinset, mem_iter, h.live]
  rw [hset, Set.ncard_coe_finset, List.toFinset_card_of_nodup (iter_nodup _)]

/-- A client that cancels only what is in the heap keeps every mark on an event of the heap. -/
private theorem marksQueued (hqueued : EachCall CancelsQueued calls) :
    ((eventQueue π).after calls).MarksQueued := by
  refine hqueued.induction (P := fun calls => ((eventQueue π).after calls).MarksQueued) ?_ ?_
  · intro n hn
    exact absurd hn List.not_mem_nil
  · intro past c _ hc h
    rw [CallMachine.after_concat]
    cases c with
    | push timePs phase payload =>
      by_cases hneg : timePs < 0
      · simpa [eventQueue, call, EventQueue.push, hneg] using h
      · have hafter : (((eventQueue π).after past).call (.push timePs phase payload)).2 =
          ((eventQueue π).after past).insert timePs phase payload :=
            congrArg Prod.snd (call_push hneg)
        intro n hn
        simp only [eventQueue] at hafter hn ⊢
        rw [hafter] at hn ⊢
        obtain ⟨e, he, hseq⟩ := h n hn
        exact ⟨e, (List.mem_orderedInsert _).mpr (Or.inr he), hseq⟩
    | cancel event =>
      have hevent := hc event rfl
      change MarksQueued (((eventQueue π).after past).cancel event).2
      unfold EventQueue.cancel
      split
      · exact h
      · intro n hn
        rcases List.mem_cons.mp hn with rfl | hn
        · exact ⟨event, hevent, rfl⟩
        · exact h n hn
    | pop => exact h.pop
    | peek => exact h

private theorem Ledger.servesLive (h : Ledger calls)
    (hmarks : ((eventQueue π).after calls).MarksQueued) : ServesLive calls := by
  refine ⟨h.least, answer_pops calls, ⟨iter_nodup _, fun e => mem_iter.trans (h.live e)⟩, ?_,
    h.ncard_live⟩
  rw [hmarks.len_eq h.nodup, h.ncard_live]

/-- A cancellation answers `True` exactly when the event is not marked. -/
private theorem answer_cancel (calls : List (QueueCall π)) (event : Event π) :
    (eventQueue π).answer calls (.cancel event) = .cancelled true ↔
      event.seq ∉ ((eventQueue π).after calls).cancelled := by
  simp only [CallMachine.answer, eventQueue, call, EventQueue.cancel, QueueAnswer.cancelled.injEq]
  split_ifs with h <;> simp [h]

/-- **The event queue is a priority queue with cancellation exactly for clients that cancel
what is still in its heap.** Then pops and peeks return the least live event, each live event
is popped once, a cancellation answers whether the event was live, and the length is the number
of live events and of steps of the iterator. -/
theorem eventQueue_refines_iff (hissued : EachCall CancelsPushed calls) :
    ((∀ past rest, calls = past ++ rest → ServesLive past) ∧ EachCall CancelsTruly calls) ↔
      EachCall CancelsQueued calls := by
  constructor
  · rintro ⟨-, htruly⟩
    induction calls using List.reverseRecOn with
    | nil => exact eachCall_nil
    | append_singleton calls c ih =>
      obtain ⟨hpast, hpushed⟩ := eachCall_concat.mp hissued
      obtain ⟨hbefore, hlast⟩ := eachCall_concat.mp htruly
      have hqueued := ih hpast hbefore
      refine eachCall_concat.mpr ⟨hqueued, ?_⟩
      rintro e rfl
      have hledger := ledger hpast
      by_cases hseq : e.seq ∈ ((eventQueue π).after calls).cancelled
      · -- the mark is on an event of the heap, which is the one that was pushed
        obtain ⟨e', he', hsame⟩ := marksQueued hqueued e.seq hseq
        rwa [← hledger.distinct e' e (hledger.heap e' he') (hpushed e rfl) hsame]
      · have hlive := (hlast e rfl).mp ((answer_cancel calls e).mpr hseq)
        exact ((hledger.live e).mpr hlive).1
  · intro hqueued
    refine ⟨?_, ?_⟩
    · rintro past rest rfl
      exact (ledger hissued.of_append).servesLive (marksQueued hqueued.of_append)
    · intro past c rest hcalls e hc
      subst hc
      have hmem := hqueued past _ rest hcalls e rfl
      rw [hcalls] at hissued
      have hledger := ledger hissued.of_append
      rw [answer_cancel, ← hledger.live]
      exact ⟨fun h => ⟨hmem, h⟩, fun h => h.2⟩

/-- Two events are pushed, the later one is cancelled, and the other one is popped. -/
def sampleCalls : List (QueueCall ℕ) :=
  [.push 7 .timer 0, .push 5 .arrival 1, .cancel ⟨7, .timer, 0, 0⟩, .pop, .pop]

private theorem sampleCalls_pushed : EachCall CancelsPushed sampleCalls := by
  simp only [sampleCalls, eachCall_cons, eachCall_nil, CancelsPushed, true_and, reduceCtorEq,
    false_implies, implies_true, and_true, QueueCall.cancel.injEq, forall_eq']
  exact ⟨_, List.mem_cons_self⟩

/-- The theorem at a run that cancels an event of the heap. -/
theorem eventQueue_refines_iff_sample :
    (∀ past rest, sampleCalls = past ++ rest → ServesLive past) ∧
      EachCall CancelsTruly sampleCalls := by
  refine (eventQueue_refines_iff sampleCalls_pushed).mpr ?_
  simp only [sampleCalls, eachCall_cons, eachCall_nil, CancelsQueued, true_and, reduceCtorEq,
    false_implies, implies_true, and_true, QueueCall.cancel.injEq, forall_eq']
  exact List.mem_of_getElem? (i := 1) rfl

/-- An event that was pushed and popped is cancelled: the queue answers `True`. -/
theorem cancel_popped :
    ¬∀ calls : List (QueueCall ℕ), EachCall CancelsPushed calls →
      (∀ past rest, calls = past ++ rest → ServesLive past) ∧ EachCall CancelsTruly calls := by
  intro h
  have hissued : EachCall CancelsPushed
      [.push 5 .timer 0, .pop, .cancel ⟨5, .timer, 0, (0 : ℕ)⟩] := by
    simp only [eachCall_cons, eachCall_nil, CancelsPushed, true_and, and_true, reduceCtorEq,
      false_implies, implies_true, QueueCall.cancel.injEq, forall_eq']
    exact ⟨_, List.mem_cons_self⟩
  have hlive := ((h _ hissued).2 [_, _] _ [] rfl _ rfl).mp rfl
  exact hlive.2.1 (List.mem_cons_of_mem _ List.mem_cons_self)

/-- After that cancellation the queue has no length. -/
example : (EventQueue.empty.insert 5 .timer 0 |>.pop.2.cancel ⟨5, .timer, 0, 0⟩).2.len =
    .error (.valueError "__len__() should return >= 0") := by decide

end EventQueue

end NpuArc
