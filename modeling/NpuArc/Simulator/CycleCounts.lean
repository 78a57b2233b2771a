import NpuArc.Library.Rounding
import NpuArc.Simulator.Timeline

/-!
# The cycles of a timeline

A timeline keeps its time in picoseconds. The duration of each call is rounded up, and what all of
them overrun is shown as cycles that no call asked for. A unit of time below is the part of a
picosecond in which both a cycle and a picosecond are whole.
-/

namespace NpuArc

namespace Simulator

namespace CoreTimeline

/-- A call that adds an event to a timeline. -/
structure Call where
  module : Module
  op : String
  cycles : ℕ
  layer : ℤ := -1

/-- The timeline after a call. -/
def add (t : CoreTimeline) (call : Call) : CoreTimeline :=
  match call.module with
  | .mxu => t.addMxu call.op call.cycles call.layer
  | .sfu => t.addSfu call.op call.cycles call.layer
  | .vector => t.addVector call.op call.cycles call.layer
  | .dma => t.addDmaParallel call.op call.cycles call.layer
  | .kv => t.addKv call.op call.cycles call.layer
  | .noc => t.addNoc call.op call.cycles call.layer

/-- The timeline of a core after some calls. -/
def afterCalls (coreId : ℕ) (frequencyMhz : ℕ+) (calls : List Call) : CoreTimeline :=
  calls.foldl add { coreId, frequencyMhz }

/-- The cycles of some calls. -/
def cyclesAdded (calls : List Call) : ℕ := (calls.map Call.cycles).sum

/-- What the duration of a call overruns when it is rounded up to picoseconds. -/
def Call.overrun (frequencyMhz : ℕ+) (call : Call) : ℕ :=
  NpuArc.overrun frequencyMhz (call.cycles * 1000000)

/-- What the durations of some calls overrun together. -/
def overrunOf (frequencyMhz : ℕ+) (calls : List Call) : ℕ :=
  (calls.map (Call.overrun frequencyMhz)).sum

/-- A timeline shows the cycles of the calls that made it: in total, for each event, and when the
present instant is saved and restored. -/
structure KeepsCycles (t : CoreTimeline) (calls : List Call) : Prop where
  total : t.totalCycles = cyclesAdded calls
  event : List.Forall₂ (fun ev call => ev.endCycle = ev.startCycle + call.cycles) t.events calls
  restored : t.setCurrentCycle t.currentCycle = t

/-! ### One call -/

variable {t : CoreTimeline} {calls : List Call} {coreId : ℕ} {frequencyMhz : ℕ+}

/-- A call moves the present instant, and appends one event that begins at the instant before and
ends at the instant behind it. -/
theorem add_eq (t : CoreTimeline) (call : Call) : ∃ overlapped busy, t.add call =
    ⟨t.coreId, t.frequencyMhz, t.nowPs + t.cyclesToPs call.cycles, busy,
      t.events ++ [⟨call.module, call.op, t.psToCycles t.nowPs,
        t.psToCycles (t.nowPs + t.cyclesToPs call.cycles), call.layer, overlapped⟩]⟩ := by
  unfold add
  cases call.module
  case mxu =>
    refine ⟨false, max t.mxuBusyUntilPs (t.nowPs + t.cyclesToPs call.cycles), ?_⟩
    rw [addMxu, schedule_eq]
  case dma | noc => exact ⟨t.overlaps call.cycles, t.mxuBusyUntilPs, schedule_eq t _ _ _ _ _⟩
  case sfu | vector | kv => exact ⟨false, t.mxuBusyUntilPs, schedule_eq t _ _ _ _ _⟩

theorem add_frequencyMhz (t : CoreTimeline) (call : Call) :
    (t.add call).frequencyMhz = t.frequencyMhz := by
  obtain ⟨overlapped, busy, heq⟩ := add_eq t call
  rw [heq, frequencyMhz_mk]

theorem add_nowPs (t : CoreTimeline) (call : Call) :
    (t.add call).nowPs = t.nowPs + t.cyclesToPs call.cycles := by
  obtain ⟨overlapped, busy, heq⟩ := add_eq t call
  rw [heq]

theorem add_events (t : CoreTimeline) (call : Call) : ∃ overlapped, (t.add call).events =
    t.events ++ [⟨call.module, call.op, t.psToCycles t.nowPs,
      t.psToCycles (t.nowPs + t.cyclesToPs call.cycles), call.layer, overlapped⟩] := by
  obtain ⟨overlapped, busy, heq⟩ := add_eq t call
  exact ⟨overlapped, by rw [heq]⟩

private theorem sum_map_append_singleton {α : Type} (f : α → ℕ) (l : List α) (a : α) :
    ((l ++ [a]).map f).sum = (l.map f).sum + f a := by
  simp

theorem cyclesAdded_append (calls : List Call) (call : Call) :
    cyclesAdded (calls ++ [call]) = cyclesAdded calls + call.cycles :=
  sum_map_append_singleton Call.cycles calls call

theorem overrunOf_append (frequencyMhz : ℕ+) (calls : List Call) (call : Call) :
    overrunOf frequencyMhz (calls ++ [call]) =
      overrunOf frequencyMhz calls + call.overrun frequencyMhz :=
  sum_map_append_singleton (Call.overrun frequencyMhz) calls call

theorem cyclesToPs_mul (t : CoreTimeline) (call : Call) :
    t.cyclesToPs call.cycles * t.frequencyMhz =
      call.cycles * 1000000 + call.overrun t.frequencyMhz :=
  ceilDiv_mul_eq t.frequencyMhz.pos _

theorem afterCalls_append (coreId : ℕ) (frequencyMhz : ℕ+) (calls : List Call) (call : Call) :
    afterCalls coreId frequencyMhz (calls ++ [call]) =
      (afterCalls coreId frequencyMhz calls).add call := by
  simp [afterCalls]

/-! ### A run of calls -/

theorem afterCalls_frequencyMhz (coreId : ℕ) (frequencyMhz : ℕ+) (calls : List Call) :
    (afterCalls coreId frequencyMhz calls).frequencyMhz = frequencyMhz := by
  induction calls using List.reverseRecOn with
  | nil => rfl
  | append_singleton calls call ih => rw [afterCalls_append, add_frequencyMhz, ih]

/-- The present instant is the time of the cycles and what the calls overrun. -/
theorem afterCalls_nowPs (coreId : ℕ) (frequencyMhz : ℕ+) (calls : List Call) :
    (afterCalls coreId frequencyMhz calls).nowPs * frequencyMhz =
      cyclesAdded calls * 1000000 + overrunOf frequencyMhz calls := by
  induction calls using List.reverseRecOn with
  | nil => simp [afterCalls, cyclesAdded, overrunOf]
  | append_singleton calls call ih =>
    have hcall := cyclesToPs_mul (afterCalls coreId frequencyMhz calls) call
    rw [afterCalls_frequencyMhz] at hcall
    rw [afterCalls_append, add_nowPs, Nat.add_mul, ih, hcall, cyclesAdded_append, overrunOf_append]
    omega

/-- The whole cycles up to the present instant. -/
theorem afterCalls_currentCycle (coreId : ℕ) (frequencyMhz : ℕ+) (calls : List Call) :
    (afterCalls coreId frequencyMhz calls).currentCycle =
      cyclesAdded calls + overrunOf frequencyMhz calls / 1000000 := by
  rw [currentCycle, psToCycles, afterCalls_frequencyMhz, afterCalls_nowPs]
  omega

/-- The total is right as long as the calls overrun by less than a cycle. -/
theorem total_iff : (afterCalls coreId frequencyMhz calls).totalCycles = cyclesAdded calls ↔
    overrunOf frequencyMhz calls < 1000000 := by
  have hcurrent := afterCalls_currentCycle coreId frequencyMhz calls
  rw [currentCycle] at hcurrent
  rw [totalCycles, hcurrent]
  omega

/-- Time is restored if the present instant overruns a whole cycle by less than a picosecond. -/
theorem restored_iff :
    (afterCalls coreId frequencyMhz calls).setCurrentCycle
        (afterCalls coreId frequencyMhz calls).currentCycle =
      afterCalls coreId frequencyMhz calls ↔
    overrunOf frequencyMhz calls % 1000000 < frequencyMhz := by
  have hnow := afterCalls_nowPs coreId frequencyMhz calls
  have hinstant : ∀ (t : CoreTimeline) (ps : ℕ), { t with nowPs := ps } = t ↔ ps = t.nowPs := by
    rintro ⟨⟩ ps
    simp
  rw [setCurrentCycle, hinstant, cyclesToPs, afterCalls_frequencyMhz,
    ceilDiv_eq_iff frequencyMhz.pos, hnow, afterCalls_currentCycle]
  omega

/-- Each event shows the cycles of its call as long as the calls overrun by less than a cycle. -/
theorem events_of_lt (hlt : overrunOf frequencyMhz calls < 1000000) :
    List.Forall₂ (fun ev call => ev.endCycle = ev.startCycle + call.cycles)
      (afterCalls coreId frequencyMhz calls).events calls := by
  induction calls using List.reverseRecOn with
  | nil => exact .nil
  | append_singleton calls call ih =>
    rw [overrunOf_append] at hlt
    obtain ⟨overlapped, hevents⟩ := add_events (afterCalls coreId frequencyMhz calls) call
    have hstart := afterCalls_currentCycle coreId frequencyMhz calls
    have hstop := afterCalls_currentCycle coreId frequencyMhz (calls ++ [call])
    rw [Nat.div_eq_of_lt (by omega), Nat.add_zero, currentCycle] at hstart
    rw [overrunOf_append, Nat.div_eq_of_lt (by omega), Nat.add_zero, cyclesAdded_append,
      afterCalls_append, currentCycle, psToCycles, add_frequencyMhz, add_nowPs, ← psToCycles,
      ← hstart] at hstop
    rw [afterCalls_append, hevents]
    exact List.rel_append (ih (by omega)) (.cons hstop .nil)

theorem overrunOf_le_of_prefix {done : List Call} (h : done <+: calls) :
    overrunOf frequencyMhz done ≤ overrunOf frequencyMhz calls := by
  obtain ⟨rest, rfl⟩ := h
  simp [overrunOf]

/-- A timeline shows the cycles of its calls behind each of them exactly when all the calls
together overrun by less than a picosecond. -/
theorem keepsCycles_iff (coreId : ℕ) (frequencyMhz : ℕ+) (hfreq : (frequencyMhz : ℕ) ≤ 1000000)
    (calls : List Call) :
    (∀ done, done <+: calls → KeepsCycles (afterCalls coreId frequencyMhz done) done) ↔
      overrunOf frequencyMhz calls < frequencyMhz := by
  constructor
  · intro h
    obtain ⟨htotal, -, hrestored⟩ := h calls List.prefix_rfl
    have hlt := total_iff.mp htotal
    rwa [restored_iff, Nat.mod_eq_of_lt hlt] at hrestored
  · intro hlt done hdone
    have hle : overrunOf frequencyMhz done ≤ overrunOf frequencyMhz calls :=
      overrunOf_le_of_prefix hdone
    have hcycle : overrunOf frequencyMhz done < 1000000 := by omega
    refine ⟨total_iff.mpr hcycle, events_of_lt hcycle, restored_iff.mpr ?_⟩
    rw [Nat.mod_eq_of_lt hcycle]
    omega

/-- Nothing overruns if a cycle takes whole picoseconds. -/
theorem overrunOf_of_dvd {frequencyMhz : ℕ+} (hdvd : (frequencyMhz : ℕ) ∣ 1000000)
    (calls : List Call) : overrunOf frequencyMhz calls = 0 := by
  induction calls using List.reverseRecOn with
  | nil => rfl
  | append_singleton calls call ih =>
    rw [overrunOf_append, ih, Call.overrun, overrun_of_dvd (hdvd.mul_left call.cycles)]

/-- A timeline shows the cycles of all its calls if a cycle takes whole picoseconds. -/
theorem keepsCycles_of_dvd (coreId : ℕ) {frequencyMhz : ℕ+}
    (hdvd : (frequencyMhz : ℕ) ∣ 1000000) (calls : List Call) :
    KeepsCycles (afterCalls coreId frequencyMhz calls) calls := by
  have hnone := overrunOf_of_dvd hdvd calls
  have hcycle : overrunOf frequencyMhz calls < 1000000 := by omega
  refine ⟨total_iff.mpr hcycle, events_of_lt hcycle, restored_iff.mpr ?_⟩
  rw [hnone]
  exact frequencyMhz.pos

/-- Two operations of one cycle each at just below a cycle a picosecond. -/
def twoCycles : List Call := [⟨.sfu, "softmax", 1, 0⟩, ⟨.vector, "residual", 1, 0⟩]

/-- Two cycles take four picoseconds, which are shown as three cycles. -/
theorem twoCycles_not_kept :
    ¬KeepsCycles (afterCalls 0 (Nat.succPNat 999998) twoCycles) twoCycles := by
  intro h
  have htotal := h.total
  rw [total_iff] at htotal
  exact absurd htotal (by decide)

/-- Eight products of 125 cycles at 1600 MHz are shown right. -/
theorem keepsCycles_at_1600 :
    KeepsCycles (afterCalls 0 (Nat.succPNat 1599) (List.replicate 8 ⟨.mxu, "Q_proj", 125, 0⟩))
      (List.replicate 8 ⟨.mxu, "Q_proj", 125, 0⟩) :=
  (keepsCycles_iff 0 (Nat.succPNat 1599) (by decide) _).mpr (by decide) _ List.prefix_rfl

end CoreTimeline

end Simulator

end NpuArc
