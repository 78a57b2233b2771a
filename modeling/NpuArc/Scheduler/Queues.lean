import NpuArc.Contracts.Errors
import NpuArc.Library.Dict

/-!
# Scheduler queues

`BoundedFIFO` enforces a capacity limit when items are enqueued.
`MailboxLatest` keeps one pending item per stream, replacing an unread pending
item rather than accumulating a backlog.
-/

namespace NpuArc

/-- A bounded FIFO queue with terminal full detection. -/
structure BoundedFIFO (T : Type) where
  capacity : ℕ
  name : String
  /-- The queued items with their sequence numbers, oldest first. -/
  items : List (ℕ × T) := []
  /-- The sequence number of the next item. -/
  sequence : ℕ := 0
  queueFull : Bool := false
  capacity_pos : 0 < capacity

namespace BoundedFIFO

variable {T : Type}

/-- An empty queue; the capacity must be positive. -/
def new (capacity : ℕ) (name : String) : Except Error (BoundedFIFO T) :=
  if h : 0 < capacity then .ok { capacity := capacity, name := name, capacity_pos := h }
  else .error (.queueFullError ("FIFO capacity must be positive, got " ++ toString capacity))

def size (q : BoundedFIFO T) : ℕ := q.items.length

def isFull (q : BoundedFIFO T) : Bool := decide (q.capacity ≤ q.size)

def isEmpty (q : BoundedFIFO T) : Bool := decide (q.size = 0)

/-- Enqueue an item and return its sequence number. A full queue sets the terminal
flag and raises. -/
def enqueue (q : BoundedFIFO T) (item : T) : Except Error ℕ × BoundedFIFO T :=
  if q.isFull then
    (.error (.queueFullError ("FIFO " ++ reprStr q.name ++ " is full (capacity=" ++
      toString q.capacity ++ ")")), { q with queueFull := true })
  else (.ok q.sequence,
    { q with items := q.items ++ [(q.sequence, item)], sequence := q.sequence + 1 })

/-- Dequeue the oldest item with its sequence number. -/
def dequeue (q : BoundedFIFO T) : Except Error (ℕ × T) × BoundedFIFO T :=
  match q.items with
  | [] => (.error (.queueFullError ("FIFO " ++ reprStr q.name ++ " is empty")), q)
  | item :: items => (.ok item, { q with items := items })

/-- The oldest item, without removing it. -/
def peek (q : BoundedFIFO T) : Option (ℕ × T) := q.items.head?

/-- The queued items, oldest first, without their sequence numbers. -/
def contents (q : BoundedFIFO T) : List T := q.items.map Prod.snd

/-- An enqueued item is appended when there is room and refused otherwise. -/
theorem enqueue_cases (q : BoundedFIFO T) (item : T) :
    (q.size < q.capacity ∧ (q.enqueue item).1 = .ok q.sequence ∧
      (q.enqueue item).2.contents = q.contents ++ [item]) ∨
    (q.capacity ≤ q.size ∧ (∃ e, (q.enqueue item).1 = .error e) ∧
      (q.enqueue item).2.contents = q.contents) := by
  unfold enqueue
  by_cases h : q.capacity ≤ q.size
  · right
    simp [isFull, h, contents]
  · left
    simp [isFull, h, contents, Nat.lt_of_not_le h]

@[simp] theorem enqueue_capacity (q : BoundedFIFO T) (item : T) :
    (q.enqueue item).2.capacity = q.capacity := by
  unfold enqueue
  split <;> rfl

@[simp] theorem dequeue_capacity (q : BoundedFIFO T) : q.dequeue.2.capacity = q.capacity := by
  unfold dequeue
  split <;> rfl

/-- Dequeuing drops the oldest item. -/
@[simp] theorem dequeue_contents (q : BoundedFIFO T) : q.dequeue.2.contents = q.contents.tail := by
  unfold dequeue contents
  split
  · next h => simp [h]
  · next h => simp [h]

theorem size_eq_length (q : BoundedFIFO T) : q.size = q.contents.length := by
  simp [size, contents]

theorem isEmpty_iff (q : BoundedFIFO T) : q.isEmpty = true ↔ q.contents = [] := by
  simp [isEmpty, size, contents]

theorem peek_map_snd (q : BoundedFIFO T) : q.peek.map Prod.snd = q.contents.head? := by
  simp [peek, contents]

end BoundedFIFO

/-- Per-stream mailbox keeping at most one pending item. The arrival time of the
first put since the last take is kept for the observation age. -/
structure MailboxLatest (T : Type) where
  name : String
  /-- The pending item of each stream with its arrival time. -/
  pending : Dict String (ℤ × T) := .empty
  arrivalPs : Dict String ℤ := .empty
  replacementCount : ℕ := 0

namespace MailboxLatest

variable {T : Type}

/-- Whether a stream has a pending item. -/
def hasPending (mb : MailboxLatest T) (streamId : String) : Bool := mb.pending.contains streamId

/-- Store an item for a stream. Returns whether a pending item was replaced. -/
def put (mb : MailboxLatest T) (streamId : String) (item : T) (nowPs : ℤ) :
    Bool × MailboxLatest T :=
  let replaced := mb.hasPending streamId
  (replaced,
    { mb with
      replacementCount := if replaced then mb.replacementCount + 1 else mb.replacementCount
      pending := mb.pending.insert streamId
        (if replaced then (mb.arrivalPs.get? streamId).getD nowPs else nowPs, item)
      arrivalPs := if replaced then mb.arrivalPs else mb.arrivalPs.insert streamId nowPs })

/-- Return and remove the pending item with its observation age. -/
def take (mb : MailboxLatest T) (streamId : String) (nowPs : ℤ) :
    Option (ℤ × T) × MailboxLatest T :=
  match mb.pending.get? streamId with
  | none => (none, mb)
  | some (arrivalPs, item) =>
    (some (nowPs - arrivalPs, item), { mb with pending := mb.pending.erase streamId })

/-- The pending item and its age, without removing it. -/
def peek (mb : MailboxLatest T) (streamId : String) (nowPs : ℤ) : Option (ℤ × T) :=
  (mb.pending.get? streamId).map fun e => (nowPs - e.1, e.2)

/-- The observation age of a stream, from the map of arrival times. -/
def agePs (mb : MailboxLatest T) (streamId : String) (nowPs : ℤ) : Except Error ℤ :=
  if mb.hasPending streamId then
    match mb.arrivalPs.get? streamId with
    | none => .error (.keyError streamId)
    | some arrivalPs => .ok (nowPs - arrivalPs)
  else .error (.keyError streamId)

/-- The pending item of a stream without its time. -/
def item? (mb : MailboxLatest T) (streamId : String) : Option T :=
  (mb.pending.get? streamId).map Prod.snd

theorem hasPending_eq_isSome (mb : MailboxLatest T) (streamId : String) :
    mb.hasPending streamId = (mb.item? streamId).isSome := by
  simp [hasPending, item?, Dict.contains]

theorem peek_map_snd (mb : MailboxLatest T) (streamId : String) (nowPs : ℤ) :
    (mb.peek streamId nowPs).map Prod.snd = mb.item? streamId := by
  simp [peek, item?, Function.comp_def]

/-- A put leaves its own item pending and touches no other stream. -/
@[simp] theorem put_item? (mb : MailboxLatest T) (streamId a : String) (item : T) (nowPs : ℤ) :
    (mb.put streamId item nowPs).2.item? a = if a = streamId then some item else mb.item? a := by
  simp only [put, item?, Dict.get?_insert]
  by_cases h : a = streamId <;> simp [h]

/-- A take empties its own stream and touches no other stream. -/
@[simp] theorem take_item? (mb : MailboxLatest T) (streamId a : String) (nowPs : ℤ) :
    (mb.take streamId nowPs).2.item? a = if a = streamId then none else mb.item? a := by
  unfold take
  cases hp : mb.pending.get? streamId with
  | none =>
    by_cases h : a = streamId
    · simp [h, item?, hp]
    · simp [h]
  | some e =>
    simp only [item?, Dict.get?_erase]
    by_cases h : a = streamId <;> simp [h]

end MailboxLatest

end NpuArc
