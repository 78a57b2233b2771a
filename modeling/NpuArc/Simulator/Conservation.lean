import NpuArc.Memory.Safety
import NpuArc.Simulator.Decode
import Mathlib.Tactic.FieldSimp
import Mathlib.Tactic.Linarith

/-!
# Where the cycles of a decode step go

The breakdown of a report counts the stalls of the weights beside the products that already contain
them, and the total of a layer is only brought up to date by a single product. So nothing is counted
twice or missed exactly when no product waits for its weights and no layer ends with a merged pair.
-/

namespace NpuArc

namespace Simulator

open Engines Residency

variable {sim : NPUSimulator} {py : Builtins} {st st' : DecodeState} {now stall c : ℕ} {layer : ℤ}

/-! ### Steps -/

/-- A step of a run: a product, or a product merged with the one after it. -/
structure DecodeStep where
  gemm : Gemm
  paired : Bool

namespace NPUSimulator

/-- The steps of a run through a trace. -/
def steps (sim : NPUSimulator) : List Gemm → List DecodeStep
  | [] => []
  | [g] => [⟨g, false⟩]
  | g :: next :: rest =>
    if sim.merges g next then ⟨g, true⟩ :: sim.steps rest
    else ⟨g, false⟩ :: sim.steps (next :: rest)

/-- What the engine estimates for a step. -/
def stepResult (sim : NPUSimulator) (step : DecodeStep) : Except Failure EngineResult :=
  if step.paired then sim.mxu.estimateWeightCachePair step.gemm.m step.gemm.k step.gemm.n
  else sim.mxu.estimate step.gemm.m step.gemm.k step.gemm.n

/-- Run a step. -/
def runStep (sim : NPUSimulator) (py : Builtins) (st : DecodeState) (step : DecodeStep) :
    Except Failure DecodeState :=
  if step.paired then sim.pairStep py step.gemm st else sim.singleStep py step.gemm st

/-- A run through a trace takes its steps one after the other. -/
theorem decodeLoop_eq (sim : NPUSimulator) (py : Builtins) (trace : List Gemm) (st : DecodeState) :
    sim.decodeLoop py trace st = (sim.steps trace).foldlM (sim.runStep py) st := by
  induction trace, st using NPUSimulator.decodeLoop.induct sim with
  | case1 st => rfl
  | case2 g st =>
    simp only [decodeLoop, steps, List.foldlM_cons, List.foldlM_nil, runStep, Bool.false_eq_true,
      if_false]
    exact (bind_pure _).symm
  | case3 st g next rest hmerges ih =>
    simp only [decodeLoop, steps, hmerges, if_true, List.foldlM_cons, runStep]
    exact bind_congr ih
  | case4 st g next rest hmerges ih =>
    simp only [decodeLoop, steps, hmerges, if_false, List.foldlM_cons, runStep, Bool.false_eq_true]
    exact bind_congr ih

end NPUSimulator

/-! ### The balance of a timeline -/

/-- The cycles of a layer on its units, without the stalls of its weights. -/
def LayerBreakdown.own (lb : LayerBreakdown) : ℕ := lb.mxu + lb.sfu + lb.vector + lb.kvCache

/-- The cycles of the events on the units, without the stalls of weights. -/
def busyCycles (events : List TimelineEvent) : ℕ :=
  cyclesOf "MXU" events + cyclesOf "SFU" events + cyclesOf "Vector" events +
    cyclesOf "KV Cache" events

/-- The instant is the sum of what the events and of what the layers count for the units, and the
stalls are counted beside it. -/
structure Balanced (st : DecodeState) (now stall : ℕ) : Prop where
  clock : st.timeline.frequencyMhz = Nat.succPNat 999
  instant : st.timeline.nowPs = now * 1000
  mxu_done : st.timeline.mxuBusyUntilPs ≤ now * 1000
  busy : busyCycles st.timeline.events = now
  stalled : cyclesOf "DMA (stall)" st.timeline.events = stall
  layers : st.layerData.total LayerBreakdown.own = now
  effective : st.layerData.total (·.dmaEffective) ≤ stall

theorem balanced_start : Balanced {} 0 0 where
  clock := rfl
  instant := rfl
  mxu_done := le_rfl
  busy := rfl
  stalled := rfl
  layers := rfl
  effective := le_rfl

/-- What an operation does to a timeline: the instant moves by the cycles that it counts for the
units, and the stalls that it counts are beside them. -/
structure Moves (t t' : CoreTimeline) (busy stall : ℕ) : Prop where
  clock : t'.frequencyMhz = t.frequencyMhz
  instant : t'.nowPs = t.nowPs + busy * 1000
  mxu_done : t'.mxuBusyUntilPs ≤ max t.mxuBusyUntilPs t'.nowPs
  busy : busyCycles t'.events = busyCycles t.events + busy
  stalled : cyclesOf "DMA (stall)" t'.events = cyclesOf "DMA (stall)" t.events + stall

/-- A timeline at a whole cycle of a gigahertz. -/
structure OnGrid (t : CoreTimeline) (now : ℕ) : Prop where
  clock : t.frequencyMhz = Nat.succPNat 999
  instant : t.nowPs = now * 1000
  mxu_done : t.mxuBusyUntilPs ≤ now * 1000

theorem Balanced.onGrid (h : Balanced st now stall) : OnGrid st.timeline now :=
  ⟨h.clock, h.instant, h.mxu_done⟩

namespace OnGrid

variable {t : CoreTimeline} (h : OnGrid t now)

include h

theorem cyclesToPs_eq (c : ℕ) : t.cyclesToPs c = c * 1000 := by
  have hfreq : ((Nat.succPNat 999 : ℕ+) : ℕ) = 1000 := rfl
  rw [CoreTimeline.cyclesToPs, h.clock, hfreq, Nat.ceilDiv_eq_add_pred_div]
  omega

theorem psToCycles_eq (c : ℕ) : t.psToCycles (c * 1000) = c := by
  have hfreq : ((Nat.succPNat 999 : ℕ+) : ℕ) = 1000 := rfl
  rw [CoreTimeline.psToCycles, h.clock, hfreq]
  omega

theorem currentCycle_eq : t.currentCycle = now := by
  rw [CoreTimeline.currentCycle, h.instant, h.psToCycles_eq]

theorem schedule_nowPs (module : Module) (op : String) (layer : ℤ) (o : Bool) :
    (t.schedule module op c layer o).nowPs = t.nowPs + c * 1000 := by
  rw [CoreTimeline.schedule]
  dsimp only
  rw [h.cyclesToPs_eq]

/-- An event counts its cycles for the entry of its unit. -/
theorem cyclesOf_schedule (module : Module) (op key : String) (layer : ℤ) (o : Bool) :
    cyclesOf key (t.schedule module op c layer o).events = cyclesOf key t.events +
      if breakdownKey ⟨module, op, 0, 0, layer, o⟩ = key then c else 0 := by
  have hcycles : TimelineEvent.cycles
      ⟨module, op, t.psToCycles t.nowPs, t.psToCycles (t.nowPs + t.cyclesToPs c), layer, o⟩ = c := by
    rw [TimelineEvent.cycles]
    dsimp only
    rw [h.instant, h.cyclesToPs_eq, h.psToCycles_eq, ← Nat.add_mul, h.psToCycles_eq,
      Nat.add_sub_cancel_left]
  rw [CoreTimeline.schedule]
  dsimp only
  rw [cyclesOf_append, cyclesOf_singleton, hcycles]
  rfl

theorem moves_schedule {module : Module} (op : String) (layer : ℤ)
    (hmodule : module ≠ .dma ∧ module ≠ .noc) :
    Moves t (t.schedule module op c layer false) c 0 where
  clock := t.schedule_frequencyMhz _ _ _ _ _
  instant := h.schedule_nowPs module op layer false
  mxu_done := by
    rw [CoreTimeline.schedule_mxuBusyUntilPs]
    exact le_max_left _ _
  busy := by
    unfold busyCycles
    rw [h.cyclesOf_schedule, h.cyclesOf_schedule, h.cyclesOf_schedule, h.cyclesOf_schedule]
    cases module <;> simp [breakdownKey] at hmodule ⊢ <;> omega
  stalled := by
    rw [h.cyclesOf_schedule]
    cases module <;> simp [breakdownKey] at hmodule ⊢

theorem moves_addMxu (op : String) (layer : ℤ) : Moves t (t.addMxu op c layer) c 0 := by
  have hmoves : Moves t (t.schedule .mxu op c layer false) c 0 :=
    h.moves_schedule op layer (by decide)
  refine ⟨t.addMxu_frequencyMhz _ _ _, ?_, ?_, ?_, ?_⟩
  · rw [CoreTimeline.addMxu_nowPs]
    exact hmoves.instant
  · rw [CoreTimeline.addMxu_mxuBusyUntilPs, CoreTimeline.addMxu_nowPs, h.schedule_nowPs,
      h.cyclesToPs_eq]
  · rw [CoreTimeline.addMxu_events]
    exact hmoves.busy
  · rw [CoreTimeline.addMxu_events]
    exact hmoves.stalled

/-- Restoring the instant behind an event that no unit counts. -/
theorem moves_restored {module : Module} {op : String} {layer : ℤ} {o : Bool} {s : ℕ}
    (hbusy : busyCycles (t.schedule module op c layer o).events = busyCycles t.events)
    (hstalled : cyclesOf "DMA (stall)" (t.schedule module op c layer o).events =
      cyclesOf "DMA (stall)" t.events + s) :
    Moves t ((t.schedule module op c layer o).setCurrentCycle now) 0 s where
  clock := by
    rw [CoreTimeline.setCurrentCycle_frequencyMhz, CoreTimeline.schedule_frequencyMhz]
  instant := by
    rw [CoreTimeline.setCurrentCycle_nowPs, CoreTimeline.schedule_cyclesToPs, h.cyclesToPs_eq,
      h.instant, Nat.zero_mul, Nat.add_zero]
  mxu_done := by
    rw [CoreTimeline.setCurrentCycle_mxuBusyUntilPs, CoreTimeline.schedule_mxuBusyUntilPs]
    exact le_max_left _ _
  busy := by rw [CoreTimeline.setCurrentCycle_events, hbusy, Nat.add_zero]
  stalled := by rw [CoreTimeline.setCurrentCycle_events, hstalled]

/-- A transfer from memory stalls for all its cycles, since it starts at the end of its product. -/
theorem moves_addDma (op : String) (layer : ℤ) :
    Moves t ((t.addDmaParallel op c layer).setCurrentCycle t.currentCycle) 0 c := by
  have hoverlaps : t.overlaps c = true → c = 0 := by
    intro htrue
    have hle := of_decide_eq_true htrue
    rw [h.cyclesToPs_eq, h.instant] at hle
    have hdone := h.mxu_done
    omega
  rw [h.currentCycle_eq, CoreTimeline.addDmaParallel]
  refine h.moves_restored ?_ ?_
  · unfold busyCycles
    rw [h.cyclesOf_schedule, h.cyclesOf_schedule, h.cyclesOf_schedule, h.cyclesOf_schedule]
    cases t.overlaps c <;> simp [breakdownKey]
  · rw [h.cyclesOf_schedule]
    cases hcase : t.overlaps c with
    | false => simp [breakdownKey]
    | true => simp [breakdownKey, hoverlaps hcase]

theorem moves_addNoc (op : String) (layer : ℤ) :
    Moves t ((t.addNoc op c layer).setCurrentCycle t.currentCycle) 0 0 := by
  rw [h.currentCycle_eq, CoreTimeline.addNoc]
  refine h.moves_restored ?_ ?_
  · unfold busyCycles
    rw [h.cyclesOf_schedule, h.cyclesOf_schedule, h.cyclesOf_schedule, h.cyclesOf_schedule]
    simp [breakdownKey]
  · rw [h.cyclesOf_schedule]
    simp [breakdownKey]

end OnGrid

/-! ### Charges -/

/-- What charging a present layer does: the balance moves, and the counters of the layer grow with
it while its total stays. -/
structure Charged (layer : ℤ) (busy stall : ℕ) (st st' : DecodeState) : Prop where
  balanced : ∀ now before, Balanced st now before → layer ∈ st.layerData.keys →
    Balanced st' (now + busy) (before + stall)
  keys : st'.layerData.keys = st.layerData.keys
  others : ∀ a, a ≠ layer → st'.layerData.get? a = st.layerData.get? a
  here : ∀ lb, st.layerData.get? layer = some lb → ∃ lb', st'.layerData.get? layer = some lb' ∧
    lb'.total = lb.total ∧ lb'.own = lb.own + busy ∧ lb.dmaEffective ≤ lb'.dmaEffective

theorem Charged.trans {b b' s s' : ℕ} {st₁ st₂ st₃ : DecodeState}
    (h : Charged layer b s st₁ st₂) (h' : Charged layer b' s' st₂ st₃) :
    Charged layer (b + b') (s + s') st₁ st₃ where
  balanced now before hbalanced hpresent := by
    have hfirst := h.balanced now before hbalanced hpresent
    have hsecond := h'.balanced _ _ hfirst (h.keys ▸ hpresent)
    rwa [Nat.add_assoc, Nat.add_assoc] at hsecond
  keys := h'.keys.trans h.keys
  others a ha := (h'.others a ha).trans (h.others a ha)
  here lb hget := by
    obtain ⟨lb₂, hget₂, htotal₂, hown₂, heff₂⟩ := h.here lb hget
    obtain ⟨lb₃, hget₃, htotal₃, hown₃, heff₃⟩ := h'.here lb₂ hget₂
    exact ⟨lb₃, hget₃, htotal₃.trans htotal₂, by omega, heff₂.trans heff₃⟩

theorem Charged.refl (layer : ℤ) (st : DecodeState) : Charged layer 0 0 st st where
  balanced _ _ hbalanced _ := hbalanced
  keys := rfl
  others _ _ := rfl
  here lb hget := ⟨lb, hget, rfl, rfl, le_rfl⟩

/-- Moving the timeline and charging a layer for it. -/
theorem charged_of_moves {t' : CoreTimeline} {b s : ℕ} {f : LayerBreakdown → LayerBreakdown}
    (hmoves : ∀ now, OnGrid st.timeline now → Moves st.timeline t' b s)
    (hown : ∀ lb, (f lb).own = lb.own + b) (htotal : ∀ lb, (f lb).total = lb.total)
    (heff : ∀ lb, lb.dmaEffective ≤ (f lb).dmaEffective ∧
      (f lb).dmaEffective ≤ lb.dmaEffective + s) :
    Charged layer b s st ({ st with timeline := t' }.charge layer f) where
  balanced now before hbalanced hpresent := by
    have h := hmoves now hbalanced.onGrid
    obtain ⟨lb, hget⟩ := Dict.mem_keys.mp hpresent
    have hinstant : t'.nowPs = (now + b) * 1000 := by
      rw [h.instant, hbalanced.instant, Nat.add_mul]
    have hcharge : ∀ weight : LayerBreakdown → ℕ,
        (st.layerData.modify layer f).total weight + weight lb =
          st.layerData.total weight + weight (f lb) := fun weight => Dict.total_modify f hget
    have hlayers := hcharge LayerBreakdown.own
    have heffective := hcharge (·.dmaEffective)
    rw [hown, hbalanced.layers] at hlayers
    have hbound := (heff lb).2
    have hbefore := hbalanced.effective
    refine ⟨h.clock.trans hbalanced.clock, hinstant, ?_, ?_, ?_, ?_, ?_⟩
    · refine h.mxu_done.trans (max_le (hbalanced.mxu_done.trans ?_) hinstant.le)
      omega
    · exact h.busy.trans (congrArg (· + b) hbalanced.busy)
    · exact h.stalled.trans (congrArg (· + s) hbalanced.stalled)
    · change (st.layerData.modify layer f).total LayerBreakdown.own = now + b
      omega
    · change (st.layerData.modify layer f).total (·.dmaEffective) ≤ before + s
      omega
  keys := Dict.keys_modify _ _ _
  others a ha := by
    change (st.layerData.modify layer f).get? a = _
    rw [Dict.get?_modify, if_neg ha]
  here lb hget := by
    refine ⟨f lb, ?_, htotal lb, hown lb, (heff lb).1⟩
    change (st.layerData.modify layer f).get? layer = _
    rw [Dict.get?_modify, if_pos rfl, hget]
    rfl

namespace NPUSimulator

variable {result : EngineResult}

theorem charged_mxu (op : String) (result : EngineResult) (layer : ℤ) (st : DecodeState) :
    Charged layer result.totalCycles.toNat 0 st (chargeMxu op result layer st) := by
  refine charged_of_moves (fun now h => h.moves_addMxu op layer) (fun lb => ?_) (fun _ => rfl)
    fun _ => ⟨le_rfl, le_rfl⟩
  simp only [LayerBreakdown.own]
  omega

theorem charged_dma (label : String) (result : EngineResult) (layer : ℤ) (st : DecodeState) :
    Charged layer 0 result.dmaCycles.toNat st (chargeDma label result layer st) := by
  refine charged_of_moves (fun now h => h.moves_addDma _ layer) (fun lb => rfl) (fun _ => rfl)
    fun lb => ⟨Nat.le_add_right _ _, ?_⟩
  exact Nat.add_le_add_left (Nat.sub_le _ _) _

theorem charged_noc (sim : NPUSimulator) (py : Builtins) (label : String) (result : EngineResult)
    (layer : ℤ) (st : DecodeState) : Charged layer 0 0 st (sim.chargeNoc py label result layer st) :=
  charged_of_moves (fun _ h => h.moves_addNoc _ layer) (fun _ => rfl) (fun _ => rfl)
    fun _ => ⟨le_rfl, le_rfl⟩

theorem charged_sfu (op : String) (c : ℕ) (layer : ℤ) (st : DecodeState) :
    Charged layer c 0 st (chargeSfu op c layer st) := by
  refine charged_of_moves (fun now h => h.moves_schedule op layer (by decide)) (fun lb => ?_)
    (fun _ => rfl) fun _ => ⟨le_rfl, le_rfl⟩
  simp only [LayerBreakdown.own]
  omega

theorem charged_vector (op : String) (c : ℕ) (layer : ℤ) (st : DecodeState) :
    Charged layer c 0 st (chargeVector op c layer st) := by
  refine charged_of_moves (fun now h => h.moves_schedule op layer (by decide)) (fun lb => ?_)
    (fun _ => rfl) fun _ => ⟨le_rfl, le_rfl⟩
  simp only [LayerBreakdown.own]
  omega

theorem charged_elements (sim : NPUSimulator) (py : Builtins) (g : Gemm) (st : DecodeState) :
    ∃ c, Charged g.layer c 0 st (sim.chargeElements py g st) := by
  unfold chargeElements
  split_ifs
  · exact ⟨_, (charged_sfu _ _ g.layer st).trans (charged_vector _ _ g.layer _)⟩
  · exact ⟨_, (charged_sfu _ _ g.layer st).trans (charged_vector _ _ g.layer _)⟩
  · exact ⟨0, .refl _ _⟩

theorem charged_kv (h : sim.chargeKv layer st = .ok st') :
    ∃ c, sim.kv.estimatePerDecode totalTokens = .ok c ∧ Charged layer c 0 st st' := by
  unfold chargeKv at h
  obtain ⟨c, hc, h⟩ := bind_eq_ok.mp h
  cases h
  refine ⟨c, hc, ?_⟩
  refine charged_of_moves (fun now h => h.moves_schedule _ layer (by decide)) (fun lb => ?_)
    (fun _ => rfl) fun _ => ⟨le_rfl, le_rfl⟩
  simp only [LayerBreakdown.own]
  omega

end NPUSimulator

/-! ### Layers -/

/-- The last step of a layer is a single product. -/
def EndsSingle (done : List DecodeStep) (layer : ℤ) : Prop :=
  (done.filter fun step => decide (step.gemm.layer = layer)).getLast?.map (·.paired) = some false

theorem endsSingle_append_self (done : List DecodeStep) (step : DecodeStep) :
    EndsSingle (done ++ [step]) step.gemm.layer ↔ step.paired = false := by
  simp [EndsSingle]

theorem endsSingle_append_other {done : List DecodeStep} {step : DecodeStep}
    (h : layer ≠ step.gemm.layer) : EndsSingle (done ++ [step]) layer ↔ EndsSingle done layer := by
  simp [EndsSingle, h.symm]

/-- The stalls that an engine estimates for a step. -/
def NPUSimulator.stallOf (sim : NPUSimulator) (step : DecodeStep) : ℕ :=
  match sim.stepResult step with
  | .ok result => result.dmaCycles.toNat
  | .error _ => 0

/-- The counters of a layer against its total. -/
structure Totalled (lb : LayerBreakdown) (closed : Prop) : Prop where
  le : lb.total ≤ lb.own + lb.dmaEffective
  eq_iff : lb.total = lb.own + lb.dmaEffective ↔ closed

/-- What has been counted after some steps. -/
structure Accounted (sim : NPUSimulator) (done : List DecodeStep) (st : DecodeState) : Prop where
  balanced : ∃ now, Balanced st now (done.map sim.stallOf).sum
  present : ∀ a, a ∈ st.layerData.keys ↔ ∃ step ∈ done, step.gemm.layer = a
  totals : ∀ a lb, st.layerData.get? a = some lb → Totalled lb (EndsSingle done a)

theorem accounted_start (sim : NPUSimulator) : Accounted sim [] {} where
  balanced := ⟨0, balanced_start⟩
  present a := by simp
  totals a lb h := by simp at h

namespace NPUSimulator

/-- What entering a layer does. -/
structure Entered (layer : ℤ) (st st' : DecodeState) : Prop where
  balanced : ∀ now stall, Balanced st now stall → ∃ later, Balanced st' later stall
  keys : ∀ a, a ∈ st'.layerData.keys ↔ a = layer ∨ a ∈ st.layerData.keys
  others : ∀ a, a ≠ layer → st'.layerData.get? a = st.layerData.get? a
  here : ∀ lb, st'.layerData.get? layer = some lb →
    st.layerData.get? layer = some lb ∨ lb.total = 0

theorem entered (h : sim.enterLayer layer st = .ok st') : Entered layer st st' := by
  unfold enterLayer at h
  split_ifs at h with hcontains
  · cases h
    have hmem : layer ∈ st.layerData.keys := Dict.contains_iff.mp hcontains
    refine ⟨fun now stall hbalanced => ⟨now, hbalanced⟩, fun a => ?_, fun _ _ => rfl,
      fun _ => Or.inl⟩
    constructor
    · exact Or.inr
    · rintro (rfl | ha)
      · exact hmem
      · exact ha
  · obtain ⟨kvSwitch, -, h⟩ := bind_eq_ok.mp h
    cases h
    have hnew : st.layerData.get? layer = none := by
      rw [Bool.not_eq_true] at hcontains
      exact Dict.contains_eq_false.mp hcontains
    refine ⟨fun now stall hbalanced => ⟨now + kvSwitch, ?_⟩, fun a => ?_, fun a ha => ?_,
      fun lb hget => ?_⟩
    · have hmoves : Moves st.timeline (st.timeline.addKv "layer_switch" kvSwitch layer) kvSwitch 0 :=
        hbalanced.onGrid.moves_schedule _ _ (by decide)
      have hinstant : (st.timeline.addKv "layer_switch" kvSwitch layer).nowPs =
          (now + kvSwitch) * 1000 := by
        rw [hmoves.instant, hbalanced.instant, Nat.add_mul]
      refine ⟨hmoves.clock.trans hbalanced.clock, hinstant, ?_, ?_, ?_, ?_, ?_⟩
      · refine hmoves.mxu_done.trans (max_le (hbalanced.mxu_done.trans ?_) hinstant.le)
        omega
      · exact hmoves.busy.trans (congrArg (· + kvSwitch) hbalanced.busy)
      · exact hmoves.stalled.trans hbalanced.stalled
      · dsimp only
        rw [Dict.total_insert hnew, hbalanced.layers]
        simp [LayerBreakdown.own]
      · dsimp only
        rw [Dict.total_insert hnew]
        exact hbalanced.effective
    · simp
    · exact (Dict.get?_insert _ _ _ _).trans (if_neg ha)
    · rw [Dict.get?_insert, if_pos rfl, Option.some.injEq] at hget
      rw [← hget]
      exact Or.inr rfl

/-- Adding up the counters of a layer changes nothing else. -/
theorem updateTotal_spec (h : Balanced st now stall) (hmem : layer ∈ st.layerData.keys) :
    Balanced (updateTotal layer st) now stall ∧
      (updateTotal layer st).layerData.keys = st.layerData.keys ∧
      (∀ a, a ≠ layer → (updateTotal layer st).layerData.get? a = st.layerData.get? a) ∧
      ∀ lb, (updateTotal layer st).layerData.get? layer = some lb →
        lb.total = lb.own + lb.dmaEffective := by
  obtain ⟨lb, hget⟩ := Dict.mem_keys.mp hmem
  unfold updateTotal DecodeState.charge
  refine ⟨⟨h.clock, h.instant, h.mxu_done, h.busy, h.stalled, ?_, ?_⟩, Dict.keys_modify _ _ _,
    fun a ha => ?_, fun lb' hget' => ?_⟩
  · exact Nat.add_right_cancel ((Dict.total_modify _ hget).trans
      (congrArg (· + lb.own) h.layers))
  · refine le_trans (le_of_eq ?_) h.effective
    exact Nat.add_right_cancel (Dict.total_modify _ hget)
  · rw [Dict.get?_modify, if_neg ha]
  · rw [Dict.get?_modify, if_pos rfl, hget] at hget'
    cases hget'
    rfl

/-- A step of one kind or the other enters its layer and charges it with the stalls of its
estimate. -/
theorem pairStep_spec {g : Gemm} (h : sim.pairStep py g st = .ok st') :
    ∃ st₁ result c, Entered g.layer st st₁ ∧ sim.stepResult ⟨g, true⟩ = .ok result ∧ 0 < c ∧
      Charged g.layer c result.dmaCycles.toNat st₁ st' := by
  unfold pairStep at h
  obtain ⟨st₁, henter, h⟩ := bind_eq_ok.mp h
  obtain ⟨result, hresult, h⟩ := bind_eq_ok.mp h
  obtain ⟨c, hc, hkv⟩ := charged_kv h
  have hpos := KvCacheModel.estimatePerDecode_pos (by decide) hc
  have hcharged := (((charged_mxu _ result g.layer st₁).trans (charged_dma _ result g.layer _)).trans
    (charged_noc sim py _ result g.layer _)).trans hkv
  simp only [Nat.zero_add, Nat.add_zero] at hcharged
  exact ⟨st₁, result, _, entered henter, hresult, by omega, hcharged⟩

theorem singleStep_spec {g : Gemm} (h : sim.singleStep py g st = .ok st') :
    ∃ st₁ st₂ result c, Entered g.layer st st₁ ∧ sim.stepResult ⟨g, false⟩ = .ok result ∧
      Charged g.layer c result.dmaCycles.toNat st₁ st₂ ∧ st' = updateTotal g.layer st₂ := by
  unfold singleStep at h
  obtain ⟨st₁, henter, h⟩ := bind_eq_ok.mp h
  obtain ⟨result, hresult, h⟩ := bind_eq_ok.mp h
  obtain ⟨st₂, hkv, h⟩ := bind_eq_ok.mp h
  cases h
  obtain ⟨c, -, hkv⟩ := charged_kv hkv
  obtain ⟨d, helements⟩ := charged_elements sim py g
    (sim.chargeNoc py (g.opName ++ " " ++ shapeText g "x") result g.layer
      (chargeDma (g.opName ++ " " ++ shapeText g "x") result g.layer
        (chargeMxu (g.opName ++ " (" ++ shapeText g "×" ++ ", " ++
          toString result.numTiles ++ "tiles)") result g.layer st₁)))
  have hcharged := ((((charged_mxu _ result g.layer st₁).trans
    (charged_dma _ result g.layer _)).trans
    (charged_noc sim py _ result g.layer _)).trans helements).trans hkv
  simp only [Nat.zero_add, Nat.add_zero] at hcharged
  exact ⟨st₁, st₂, result, _, entered henter, hresult, hcharged, rfl⟩

/-- The stalls that a step counts are those of its estimate. -/
theorem stallOf_eq {step : DecodeStep} {result : EngineResult}
    (h : sim.stepResult step = .ok result) : sim.stallOf step = result.dmaCycles.toNat := by
  rw [stallOf, h]

/-- A step keeps the account. -/
theorem accounted_runStep {done : List DecodeStep} {step : DecodeStep}
    (haccounted : Accounted sim done st) (h : sim.runStep py st step = .ok st') :
    Accounted sim (done ++ [step]) st' := by
  obtain ⟨now, hbalanced⟩ := haccounted.balanced
  have hmap : ((done ++ [step]).map sim.stallOf).sum =
      (done.map sim.stallOf).sum + sim.stallOf step := by simp
  have hpresent : ∀ a, (∃ other ∈ done ++ [step], other.gemm.layer = a) ↔
      a = step.gemm.layer ∨ ∃ other ∈ done, other.gemm.layer = a := by
    intro a
    simp only [List.mem_append, List.mem_singleton, or_and_right, exists_or, exists_eq_left]
    rw [or_comm, eq_comm]
  -- What a layer has when it is entered is no more than its counters.
  have hentered : ∀ st₁, Entered step.gemm.layer st st₁ → ∀ lb,
      st₁.layerData.get? step.gemm.layer = some lb → lb.total ≤ lb.own + lb.dmaEffective := by
    intro st₁ henter lb hget
    rcases henter.here lb hget with hold | hzero
    · exact (haccounted.totals _ lb hold).le
    · rw [hzero]
      exact Nat.zero_le _
  have hothers : ∀ a lb, a ≠ step.gemm.layer → st'.layerData.get? a = st.layerData.get? a →
      st'.layerData.get? a = some lb → Totalled lb (EndsSingle (done ++ [step]) a) := by
    intro a lb ha hsame hget
    have hold := haccounted.totals a lb (hsame.symm.trans hget)
    exact ⟨hold.le, hold.eq_iff.trans (endsSingle_append_other ha).symm⟩
  unfold runStep at h
  cases hpaired : step.paired with
  | true =>
    rw [hpaired, if_pos rfl] at h
    obtain ⟨st₁, result, c, henter, hresult, hpos, hcharged⟩ := pairStep_spec h
    have hstep : (⟨step.gemm, true⟩ : DecodeStep) = step := by rw [← hpaired]
    rw [hstep] at hresult
    obtain ⟨later, hlater⟩ := henter.balanced now _ hbalanced
    have hmem : step.gemm.layer ∈ st₁.layerData.keys := (henter.keys _).mpr (Or.inl rfl)
    refine ⟨⟨later + c, ?_⟩, fun a => ?_, fun a lb hget => ?_⟩
    · rw [hmap, stallOf_eq hresult]
      exact hcharged.balanced later _ hlater hmem
    · rw [hcharged.keys, henter.keys, hpresent, haccounted.present]
    · by_cases ha : a = step.gemm.layer
      · subst ha
        obtain ⟨lb₁, hget₁⟩ := Dict.mem_keys.mp hmem
        have hle := hentered st₁ henter lb₁ hget₁
        obtain ⟨lb', hget', htotal, hown, heff⟩ := hcharged.here lb₁ hget₁
        rw [hget] at hget'
        cases hget'
        refine ⟨by omega, iff_of_false (by omega) ?_⟩
        rw [endsSingle_append_self, hpaired]
        intro hfalse
        cases hfalse
      · exact hothers a lb ha ((hcharged.others a ha).trans (henter.others a ha)) hget
  | false =>
    rw [hpaired, if_neg Bool.false_ne_true] at h
    obtain ⟨st₁, st₂, result, c, henter, hresult, hcharged, rfl⟩ := singleStep_spec h
    have hstep : (⟨step.gemm, false⟩ : DecodeStep) = step := by rw [← hpaired]
    rw [hstep] at hresult
    obtain ⟨later, hlater⟩ := henter.balanced now _ hbalanced
    have hmem : step.gemm.layer ∈ st₁.layerData.keys := (henter.keys _).mpr (Or.inl rfl)
    obtain ⟨hbalanced', hkeys, hsame, htotal⟩ := updateTotal_spec
      (hcharged.balanced later _ hlater hmem) (hcharged.keys ▸ hmem)
    refine ⟨⟨later + c, ?_⟩, fun a => ?_, fun a lb hget => ?_⟩
    · rw [hmap, stallOf_eq hresult]
      exact hbalanced'
    · rw [hkeys, hcharged.keys, henter.keys, hpresent, haccounted.present]
    · by_cases ha : a = step.gemm.layer
      · subst ha
        have heq := htotal lb hget
        exact ⟨heq.le, iff_of_true heq ((endsSingle_append_self _ _).mpr hpaired)⟩
      · exact hothers a lb ha ((hsame a ha).trans ((hcharged.others a ha).trans
          (henter.others a ha))) hget

/-- A run keeps the account. -/
theorem accounted_foldlM {done todo : List DecodeStep} (haccounted : Accounted sim done st)
    (h : todo.foldlM (sim.runStep py) st = .ok st') : Accounted sim (done ++ todo) st' := by
  induction todo generalizing done st with
  | nil =>
    cases h
    rw [List.append_nil]
    exact haccounted
  | cons step todo ih =>
    rw [List.foldlM_cons] at h
    obtain ⟨st₁, hstep, h⟩ := bind_eq_ok.mp h
    have hrest := ih (accounted_runStep haccounted hstep) h
    rwa [List.append_assoc] at hrest

theorem accounted_decodeLoop {trace : List Gemm} (h : sim.decodeLoop py trace {} = .ok st) :
    Accounted sim (sim.steps trace) st := by
  rw [decodeLoop_eq] at h
  exact accounted_foldlM (accounted_start sim) h

end NPUSimulator

/-! ### Reports -/

namespace SimulationReport

/-- The cycles of an entry of the breakdown. -/
def entryCycles (r : SimulationReport) (fMhz : ℕ) (key : String) : ℚ :=
  (r.decodeBreakdown.get? key).getD 0 * fMhz

/-- The cycles of the entries that are not hidden. -/
def effectiveCycles (r : SimulationReport) (fMhz : ℕ) : ℚ :=
  r.entryCycles fMhz "MXU" + r.entryCycles fMhz "SFU" + r.entryCycles fMhz "Vector" +
    r.entryCycles fMhz "KV Cache" + r.entryCycles fMhz "DMA (stall)"

/-- The cycles of the decode step. -/
def totalCycles (r : SimulationReport) (fMhz : ℕ) : ℚ := r.decodePerTokenUs * fMhz

/-- The cycles of the refresh, the last event. -/
def refreshCycles (r : SimulationReport) : ℕ := r.events.getLast?.elim 0 TimelineEvent.cycles

/-- The totals of all layers. -/
def layerCycles (r : SimulationReport) : ℕ := (r.layerBreakdowns.map (·.total)).sum

end SimulationReport

/-- No cycle is counted twice or missed: the entries of the breakdown sum to the cycles of the step,
and so do the totals of the layers with the refresh. -/
structure Conserved (sim : NPUSimulator) (r : SimulationReport) : Prop where
  breakdown : r.effectiveCycles sim.fMhz = r.totalCycles sim.fMhz
  layers : (r.layerCycles + r.refreshCycles : ℕ) = r.totalCycles sim.fMhz

/-- No product waits for its weights, and every layer ends with a single product. -/
structure CountedOnce (sim : NPUSimulator) (trace : List Gemm) : Prop where
  loaded : ∀ step ∈ sim.steps trace, ∀ result, sim.stepResult step = .ok result →
    result.dmaCycles = 0
  ends_single : ∀ step ∈ sim.steps trace, EndsSingle (sim.steps trace) step.gemm.layer

namespace NPUSimulator

/-- What a report shows of the state at the end of a run. -/
theorem report_spec {r : SimulationReport} (h : sim.report st = .ok r)
    (hbalanced : Balanced st now stall) :
    ∃ refresh, r.effectiveCycles sim.fMhz = (now + refresh + stall : ℕ) ∧
      r.totalCycles sim.fMhz = (now + refresh : ℕ) ∧ r.refreshCycles = refresh ∧
      r.layerCycles = st.layerData.total (·.total) := by
  unfold report at h
  obtain ⟨decodeUs, hus, h⟩ := bind_eq_ok.mp h
  cases h
  set refresh := sim.dram.addRefreshOverhead st.timeline.totalCycles
  set timeline := st.timeline.addKv "dram_refresh" refresh (-1) with htimeline
  have hgrid := hbalanced.onGrid
  have hmoves : Moves st.timeline timeline refresh 0 :=
    hgrid.moves_schedule _ _ (by decide)
  have htotal : timeline.totalCycles = now + refresh := by
    have hnow : timeline.nowPs = (now + refresh) * 1000 := by
      rw [hmoves.instant, hbalanced.instant, Nat.add_mul]
    rw [CoreTimeline.totalCycles, hnow, htimeline, CoreTimeline.addKv,
      CoreTimeline.schedule_psToCycles, hgrid.psToCycles_eq]
  unfold cyclesToMicroseconds at hus
  split_ifs at hus with hzero
  cases hus
  have hclock : (sim.fMhz : ℚ) ≠ 0 := by exact_mod_cast hzero
  refine ⟨refresh, ?_, ?_, ?_, ?_⟩
  · have hentry : ∀ key, ((((breakdownEvents timeline.events).mapValues
        fun _ (cycles : ℕ) => (cycles : ℚ) / sim.fMhz).get? key).getD 0) * sim.fMhz =
          cyclesOf key timeline.events := by
      intro key
      rw [← getD_breakdownEvents, Dict.get?_mapValues]
      cases (breakdownEvents timeline.events).get? key with
      | none => simp
      | some cycles =>
        rw [Option.map_some, Option.getD_some, Option.getD_some]
        field_simp
    have hbusy := hmoves.busy
    rw [hbalanced.busy] at hbusy
    have hstalled := hmoves.stalled
    rw [hbalanced.stalled] at hstalled
    unfold SimulationReport.effectiveCycles SimulationReport.entryCycles
    dsimp only
    rw [hentry, hentry, hentry, hentry, hentry, hstalled, ← hbusy]
    unfold busyCycles
    push_cast
    ring
  · unfold SimulationReport.totalCycles
    dsimp only
    rw [htotal]
    field_simp
  · unfold SimulationReport.refreshCycles
    dsimp only
    have hcycles := hgrid.cyclesOf_schedule (c := refresh) .kv "dram_refresh" "KV Cache" (-1) false
    rw [CoreTimeline.schedule] at hcycles
    dsimp only at hcycles
    rw [cyclesOf_append, cyclesOf_singleton] at hcycles
    have hone := Nat.add_left_cancel hcycles
    rw [htimeline, CoreTimeline.addKv, CoreTimeline.schedule]
    dsimp only
    rw [List.getLast?_append, List.getLast?_singleton]
    exact hone
  · unfold SimulationReport.layerCycles Dict.total
    dsimp only
    exact ((List.perm_insertionSort _ _).map _).sum_eq

/-- No stalls are counted exactly when no product waits for its weights. -/
theorem stalls_eq_zero_iff (sim : NPUSimulator) (done : List DecodeStep) :
    (done.map sim.stallOf).sum = 0 ↔ ∀ step ∈ done, ∀ result, sim.stepResult step = .ok result →
      result.dmaCycles = 0 := by
  rw [List.sum_eq_zero_iff, List.forall_mem_map]
  refine forall₂_congr fun step _ => ?_
  unfold stallOf
  cases hresult : sim.stepResult step with
  | error err => simp
  | ok result =>
    have hnonneg := result.valid.dmaCycles
    simp only [Except.ok.injEq, forall_eq']
    omega

/-- Without stalls the totals of the layers reach the instant exactly when every layer ends with a
single product. -/
theorem totals_eq_iff {done : List DecodeStep} (haccounted : Accounted sim done st)
    (hbalanced : Balanced st now 0) :
    st.layerData.total (·.total) = now ↔ ∀ step ∈ done, EndsSingle done step.gemm.layer := by
  have heffective : ∀ a lb, st.layerData.get? a = some lb → lb.dmaEffective = 0 := by
    have hzero : st.layerData.total (fun _ => 0) = st.layerData.total (·.dmaEffective) := by
      rw [Nat.le_zero.mp hbalanced.effective]
      simp [Dict.total]
    intro a lb hget
    exact ((Dict.total_le_total fun _ _ _ => Nat.zero_le _).2.mp hzero a lb hget).symm
  have htotals : ∀ a lb, st.layerData.get? a = some lb →
      lb.total ≤ lb.own ∧ (lb.total = lb.own ↔ EndsSingle done a) := by
    intro a lb hget
    have htotalled := haccounted.totals a lb hget
    have hle := htotalled.le
    have heq := htotalled.eq_iff
    rw [heffective a lb hget, Nat.add_zero] at hle heq
    exact ⟨hle, heq⟩
  rw [← hbalanced.layers, (Dict.total_le_total fun a lb hget => (htotals a lb hget).1).2]
  constructor
  · intro hall step hstep
    obtain ⟨lb, hget⟩ := Dict.mem_keys.mp ((haccounted.present _).mpr ⟨step, hstep, rfl⟩)
    exact (htotals _ lb hget).2.mp (hall _ lb hget)
  · intro hall a lb hget
    obtain ⟨step, hstep, rfl⟩ := (haccounted.present a).mp (Dict.mem_keys.mpr ⟨lb, hget⟩)
    exact (htotals _ lb hget).2.mpr (hall step hstep)

/-- What is conserved in the report of a run. -/
private theorem conserved_of_run {trace : List Gemm} {r : SimulationReport}
    (h : sim.simulateDecode py trace = .ok r) : Conserved sim r ↔ CountedOnce sim trace := by
  unfold simulateDecode at h
  obtain ⟨st, hloop, hreport⟩ := bind_eq_ok.mp h
  have haccounted := accounted_decodeLoop hloop
  obtain ⟨now, hbalanced⟩ := haccounted.balanced
  obtain ⟨refresh, heffective, htotal, hrefresh, hlayers⟩ := report_spec hreport hbalanced
  have hbreakdown : r.effectiveCycles sim.fMhz = r.totalCycles sim.fMhz ↔
      ((sim.steps trace).map sim.stallOf).sum = 0 := by
    rw [heffective, htotal, Nat.cast_inj]
    omega
  have hlayered : ((r.layerCycles + r.refreshCycles : ℕ) : ℚ) = r.totalCycles sim.fMhz ↔
      st.layerData.total (·.total) = now := by
    rw [hlayers, hrefresh, htotal, Nat.cast_inj]
    omega
  constructor
  · intro hconserved
    have hzero := hbreakdown.mp hconserved.breakdown
    rw [hzero] at hbalanced
    exact ⟨(sim.stalls_eq_zero_iff _).mp hzero,
      (totals_eq_iff haccounted hbalanced).mp (hlayered.mp hconserved.layers)⟩
  · intro honce
    have hzero := (sim.stalls_eq_zero_iff _).mpr honce.loaded
    refine ⟨hbreakdown.mpr hzero, hlayered.mpr ?_⟩
    rw [hzero] at hbalanced
    exact (totals_eq_iff haccounted hbalanced).mpr honce.ends_single

/-- No cycle of a decode step is counted twice or missed exactly when no product waits for its
weights and every layer ends with a single product. -/
theorem conserved_iff {trace : List Gemm} {r : SimulationReport}
    (h : sim.simulateDecode py trace = .ok r) : Conserved sim r ↔ CountedOnce sim trace :=
  conserved_of_run h

end NPUSimulator

/-! ### A run whose product waits for its weights -/

/-- A configuration of a small array with a narrow memory. -/
def narrowMemory : SimulatorConfig where
  mxu := some
    { type := some "systolic"
      frequencyMhz := some ⟨1000, by norm_num⟩ }
  memory := { bandwidthGbps := some ⟨51.2, by norm_num⟩ }
  sfu := { width := Nat.succPNat 63 }
  kvCache := { sramKb := 256, dramRegionMb := 96, precisionBits := 8 }

/-- The projection of the queries of a model. -/
def queryTrace : List Gemm := [⟨1, 2048, 2048, 0, "Q_proj"⟩]

/-- The graph of the projection. -/
def queryGraph : WorkloadGraph where
  nodes := [⟨"n_Q_proj_0", "gemm"⟩]
  tensors := [
    { tensorId := "t_act_0", shape := [.fixed (Nat.succPNat 0), .fixed 2048], precision := .int8,
      producerNode := "input" },
    { tensorId := "t_weight_0", shape := [.fixed 2048, .fixed 2048], precision := .int4,
      producerNode := "input" },
    { tensorId := "t_out_0", shape := [.fixed (Nat.succPNat 0), .fixed 2048], precision := .int8,
      producerNode := "n_Q_proj_0" }]
  nodeIds_nodup := by decide
  tensorIds_nodup := by decide
  producer_mem := by decide
  alias_mem := by decide

/-- The simulation of the projection succeeds and counts its stall twice. -/
private theorem query_sample :
    ∃ sim r, NPUSimulator.create sampleBuiltins narrowMemory queryGraph = .ok sim ∧
      sim.simulateDecode sampleBuiltins queryTrace = .ok r ∧
      r.effectiveCycles sim.fMhz ≠ r.totalCycles sim.fMhz := by
  have htest : ((NPUSimulator.create sampleBuiltins narrowMemory queryGraph).toOption.any fun sim =>
      (sim.simulateDecode sampleBuiltins queryTrace).toOption.any fun r =>
        decide (r.effectiveCycles sim.fMhz ≠ r.totalCycles sim.fMhz)) = true := by
    decide +kernel
  obtain ⟨sim, hsim, htest⟩ := (Option.any_eq_true _ _).mp htest
  obtain ⟨r, hr, htest⟩ := (Option.any_eq_true _ _).mp htest
  exact ⟨sim, r, toOption_eq_some.mp hsim, toOption_eq_some.mp hr, of_decide_eq_true htest⟩

/-- A stall that is counted beside the product that contains it. -/
theorem stall_counted_twice :
    ¬∀ (py : Builtins) (c : SimulatorConfig) (graph : WorkloadGraph) (sim : NPUSimulator)
      (trace : List Gemm) (r : SimulationReport), NPUSimulator.create py c graph = .ok sim →
      trace ≠ [] → (∀ g ∈ trace, 0 < g.m ∧ 0 < g.k ∧ 0 < g.n) →
      sim.simulateDecode py trace = .ok r → Conserved sim r := by
  intro h
  obtain ⟨sim, r, hsim, hr, hne⟩ := query_sample
  exact hne (h _ _ _ sim queryTrace r hsim (by decide) (by decide) hr).breakdown

theorem conserved_iff_query :
    ∃ sim r, NPUSimulator.create sampleBuiltins narrowMemory queryGraph = .ok sim ∧
      sim.simulateDecode sampleBuiltins queryTrace = .ok r ∧
      (Conserved sim r ↔ CountedOnce sim queryTrace) := by
  obtain ⟨sim, r, hsim, hr, -⟩ := query_sample
  exact ⟨sim, r, hsim, hr, NPUSimulator.conserved_iff hr⟩

end Simulator

end NpuArc
