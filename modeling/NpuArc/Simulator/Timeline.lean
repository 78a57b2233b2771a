import NpuArc.Library.Dict
import Mathlib.Algebra.Order.Floor.Div
import Mathlib.Data.Nat.Cast.Order.Ring
import Mathlib.Data.PNat.Basic
import Mathlib.Tactic.Common

/-!
# The timeline of a core

Operations are appended to a timeline, each from the present instant, which moves to its end. Time
is in whole picoseconds and shown in cycles. A transfer is overlapped if it ends while the matrix
unit is busy. The breakdown of a timeline adds up the cycles of its events by unit.
-/

namespace NpuArc

namespace Simulator

/-- The unit of an event. -/
inductive Module
  | mxu
  | sfu
  | vector
  | dma
  | kv
  | noc
  deriving DecidableEq

/-- An event of a timeline. The layer of an event of the system is `-1`. -/
structure TimelineEvent where
  module : Module
  op : String
  startCycle : ℕ
  endCycle : ℕ
  layer : ℤ := -1
  overlapped : Bool := false
  deriving DecidableEq

/-- The cycles of an event. -/
def TimelineEvent.cycles (ev : TimelineEvent) : ℕ := ev.endCycle - ev.startCycle

/-- A timeline. -/
structure CoreTimeline where
  coreId : ℕ := 0
  frequencyMhz : ℕ+ := Nat.succPNat 999
  nowPs : ℕ := 0
  mxuBusyUntilPs : ℕ := 0
  events : List TimelineEvent := []

namespace CoreTimeline

/-- The picoseconds of some cycles, rounded up. -/
def cyclesToPs (t : CoreTimeline) (cycles : ℕ) : ℕ := (cycles * 1000000) ⌈/⌉ (t.frequencyMhz : ℕ)

/-- The whole cycles in some picoseconds. -/
def psToCycles (t : CoreTimeline) (ps : ℕ) : ℕ := ps * t.frequencyMhz / 1000000

/-- Append an event from the present instant, which moves to its end. -/
def schedule (t : CoreTimeline) (module : Module) (op : String) (cycles : ℕ) (layer : ℤ)
    (overlapped : Bool) : CoreTimeline :=
  let stop := t.nowPs + t.cyclesToPs cycles
  { t with
    nowPs := stop
    events := t.events ++
      [{ module := module
         op := op
         startCycle := t.psToCycles t.nowPs
         endCycle := t.psToCycles stop
         layer := layer
         overlapped := overlapped }] }

/-- Schedule a product on the matrix unit. -/
def addMxu (t : CoreTimeline) (op : String) (cycles : ℕ) (layer : ℤ) : CoreTimeline :=
  { t.schedule .mxu op cycles layer false with
    mxuBusyUntilPs := max t.mxuBusyUntilPs (t.nowPs + t.cyclesToPs cycles) }

/-- Schedule an operation of the unit of special functions. -/
def addSfu (t : CoreTimeline) (op : String) (cycles : ℕ) (layer : ℤ) : CoreTimeline :=
  t.schedule .sfu op cycles layer false

/-- Schedule an operation of the vector unit. -/
def addVector (t : CoreTimeline) (op : String) (cycles : ℕ) (layer : ℤ) : CoreTimeline :=
  t.schedule .vector op cycles layer false

/-- Schedule an access of the KV cache. -/
def addKv (t : CoreTimeline) (op : String) (cycles : ℕ) (layer : ℤ) : CoreTimeline :=
  t.schedule .kv op cycles layer false

/-- Whether some cycles from the present instant end while the matrix unit is busy. -/
def overlaps (t : CoreTimeline) (cycles : ℕ) : Bool :=
  decide ((t.cyclesToPs cycles : ℤ) ≤ t.mxuBusyUntilPs - t.nowPs)

/-- Schedule a transfer from memory. -/
def addDmaParallel (t : CoreTimeline) (op : String) (cycles : ℕ) (layer : ℤ) : CoreTimeline :=
  t.schedule .dma op cycles layer (t.overlaps cycles)

/-- Schedule a transfer over the network. -/
def addNoc (t : CoreTimeline) (op : String) (cycles : ℕ) (layer : ℤ) : CoreTimeline :=
  t.schedule .noc op cycles layer (t.overlaps cycles)

/-- The present instant in cycles. -/
def currentCycle (t : CoreTimeline) : ℕ := t.psToCycles t.nowPs

/-- Set the present instant. -/
def setCurrentCycle (t : CoreTimeline) (cycles : ℕ) : CoreTimeline :=
  { t with nowPs := t.cyclesToPs cycles }

/-- The cycles of a timeline. -/
def totalCycles (t : CoreTimeline) : ℕ := t.psToCycles t.nowPs

/-! ### The fields of a timeline -/

/-- The frequency of a timeline that is given by its fields. -/
theorem frequencyMhz_mk (coreId : ℕ) (frequencyMhz : ℕ+) (nowPs busy : ℕ)
    (events : List TimelineEvent) :
    (⟨coreId, frequencyMhz, nowPs, busy, events⟩ : CoreTimeline).frequencyMhz = frequencyMhz := rfl

theorem mxuBusyUntilPs_mk (coreId : ℕ) (frequencyMhz : ℕ+) (nowPs busy : ℕ)
    (events : List TimelineEvent) :
    (⟨coreId, frequencyMhz, nowPs, busy, events⟩ : CoreTimeline).mxuBusyUntilPs = busy := rfl

theorem events_mk (coreId : ℕ) (frequencyMhz : ℕ+) (nowPs busy : ℕ)
    (events : List TimelineEvent) :
    (⟨coreId, frequencyMhz, nowPs, busy, events⟩ : CoreTimeline).events = events := rfl

theorem nowPs_mk (coreId : ℕ) (frequencyMhz : ℕ+) (nowPs busy : ℕ)
    (events : List TimelineEvent) :
    (⟨coreId, frequencyMhz, nowPs, busy, events⟩ : CoreTimeline).nowPs = nowPs := rfl

variable (t : CoreTimeline) (module : Module) (op : String) (cycles : ℕ) (layer : ℤ)
  (overlapped : Bool)

theorem schedule_eq : t.schedule module op cycles layer overlapped =
    ⟨t.coreId, t.frequencyMhz, t.nowPs + t.cyclesToPs cycles, t.mxuBusyUntilPs,
      t.events ++ [⟨module, op, t.psToCycles t.nowPs,
        t.psToCycles (t.nowPs + t.cyclesToPs cycles), layer, overlapped⟩]⟩ := rfl

theorem setCurrentCycle_eq : t.setCurrentCycle cycles =
    ⟨t.coreId, t.frequencyMhz, t.cyclesToPs cycles, t.mxuBusyUntilPs, t.events⟩ := rfl

@[simp] theorem schedule_frequencyMhz :
    (t.schedule module op cycles layer overlapped).frequencyMhz = t.frequencyMhz := by
  rw [schedule_eq, frequencyMhz_mk]

@[simp] theorem schedule_mxuBusyUntilPs :
    (t.schedule module op cycles layer overlapped).mxuBusyUntilPs = t.mxuBusyUntilPs := by
  rw [schedule_eq, mxuBusyUntilPs_mk]

@[simp] theorem schedule_cyclesToPs (c : ℕ) :
    (t.schedule module op cycles layer overlapped).cyclesToPs c = t.cyclesToPs c := by
  unfold cyclesToPs
  rw [schedule_frequencyMhz]

@[simp] theorem schedule_psToCycles (ps : ℕ) :
    (t.schedule module op cycles layer overlapped).psToCycles ps = t.psToCycles ps := by
  unfold psToCycles
  rw [schedule_frequencyMhz]

@[simp] theorem setCurrentCycle_frequencyMhz :
    (t.setCurrentCycle cycles).frequencyMhz = t.frequencyMhz := by
  rw [setCurrentCycle_eq, frequencyMhz_mk]

@[simp] theorem setCurrentCycle_nowPs : (t.setCurrentCycle cycles).nowPs = t.cyclesToPs cycles := by
  rw [setCurrentCycle_eq, nowPs_mk]

@[simp] theorem setCurrentCycle_mxuBusyUntilPs :
    (t.setCurrentCycle cycles).mxuBusyUntilPs = t.mxuBusyUntilPs := by
  rw [setCurrentCycle_eq, mxuBusyUntilPs_mk]

@[simp] theorem setCurrentCycle_events : (t.setCurrentCycle cycles).events = t.events := by
  rw [setCurrentCycle_eq, events_mk]

@[simp] theorem addMxu_frequencyMhz :
    (t.addMxu op cycles layer).frequencyMhz = t.frequencyMhz := by
  rw [addMxu, frequencyMhz_mk, schedule_frequencyMhz]

@[simp] theorem addMxu_nowPs : (t.addMxu op cycles layer).nowPs =
    (t.schedule .mxu op cycles layer false).nowPs := by
  rw [addMxu, nowPs_mk]

@[simp] theorem addMxu_mxuBusyUntilPs : (t.addMxu op cycles layer).mxuBusyUntilPs =
    max t.mxuBusyUntilPs (t.nowPs + t.cyclesToPs cycles) := by
  rw [addMxu, mxuBusyUntilPs_mk]

@[simp] theorem addMxu_events : (t.addMxu op cycles layer).events =
    (t.schedule .mxu op cycles layer false).events := by
  rw [addMxu, events_mk]

end CoreTimeline

/-- The entry of an event in a breakdown. -/
def breakdownKey (ev : TimelineEvent) : String :=
  match ev.module with
  | .mxu => "MXU"
  | .sfu => "SFU"
  | .vector => "Vector"
  | .dma => if ev.overlapped then "DMA (hidden)" else "DMA (stall)"
  | .kv => "KV Cache"
  | .noc => "noc_latency"

/-- Add the cycles of an event to its entry. -/
def addToBreakdown (modules : Dict String ℕ) (ev : TimelineEvent) : Dict String ℕ :=
  modules.insert (breakdownKey ev) ((modules.get? (breakdownKey ev)).getD 0 + ev.cycles)

/-- Add up the cycles of events by unit. -/
def breakdownEvents (events : List TimelineEvent) : Dict String ℕ :=
  (events.foldl addToBreakdown .empty).setDefault "noc_contention" 0

/-! ### Sums over events -/

/-- The cycles of the events with an entry. -/
def cyclesOf (key : String) (events : List TimelineEvent) : ℕ :=
  (events.map fun ev => if breakdownKey ev = key then ev.cycles else 0).sum

@[simp] theorem cyclesOf_nil (key : String) : cyclesOf key [] = 0 := rfl

@[simp] theorem cyclesOf_append (key : String) (events events' : List TimelineEvent) :
    cyclesOf key (events ++ events') = cyclesOf key events + cyclesOf key events' := by
  simp [cyclesOf]

@[simp] theorem cyclesOf_singleton (key : String) (ev : TimelineEvent) :
    cyclesOf key [ev] = if breakdownKey ev = key then ev.cycles else 0 := by
  simp [cyclesOf]

private theorem getD_foldl_addToBreakdown (key : String) (events : List TimelineEvent)
    (modules : Dict String ℕ) : ((events.foldl addToBreakdown modules).get? key).getD 0 =
      (modules.get? key).getD 0 + cyclesOf key events := by
  induction events generalizing modules with
  | nil => simp
  | cons ev events ih =>
    have hone : ((addToBreakdown modules ev).get? key).getD 0 =
        (modules.get? key).getD 0 + if breakdownKey ev = key then ev.cycles else 0 := by
      unfold addToBreakdown
      rw [Dict.get?_insert]
      by_cases hkey : key = breakdownKey ev
      · simp [hkey]
      · simp [hkey, Ne.symm hkey]
    rw [List.foldl_cons, ih, hone]
    simp [cyclesOf, Nat.add_assoc]

/-- An entry of a breakdown holds the cycles of its events. -/
theorem getD_breakdownEvents (key : String) (events : List TimelineEvent) :
    ((breakdownEvents events).get? key).getD 0 = cyclesOf key events := by
  have hsum : ((events.foldl addToBreakdown .empty).get? key).getD 0 = cyclesOf key events := by
    rw [getD_foldl_addToBreakdown, Dict.get?_empty, Option.getD_none, Nat.zero_add]
  unfold breakdownEvents
  rw [Dict.get?_setDefault, ← hsum]
  split_ifs with hkey
  · rw [hkey, Option.getD_some]
  · rfl

end Simulator

end NpuArc
