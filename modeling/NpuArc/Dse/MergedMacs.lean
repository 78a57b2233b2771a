import NpuArc.Dse.Explorer
import NpuArc.Library.Lists
import NpuArc.Simulator.Conservation

/-!
# The work of merged products

With a weight cache, the simulation of a decode step and that of a layer estimate the two products
of a gated layer as a pair with the dimensions of the first one. The first simulation compares all
dimensions but the last, the second one only the names. So all work is charged exactly when the
merged products have as much work as those they are merged with.
-/

namespace NpuArc

namespace Engines

namespace Engine

variable {e : Engine} {m k n : ℕ} {r : EngineResult}

theorem macCount_of_new {fields : ResultFields} (h : EngineResult.new fields = .ok r) :
    r.macCount = fields.macCount :=
  congrArg ResultFields.macCount (EngineResult.new_eq_ok.mp h)

/-- An estimate charges the work of its product. -/
theorem estimate_macCount (h : e.estimate m k n = .ok r) : r.macCount = m * k * n := by
  unfold estimate at h
  cases e with
  | systolic e =>
    dsimp only [SystolicEngine.estimate] at h
    split_ifs at h
    exact macCount_of_new h
  | osSystolic e =>
    obtain ⟨weightDma, -, h⟩ := bind_eq_ok.mp h
    exact macCount_of_new h
  | block e =>
    obtain ⟨weightDma, -, h⟩ := bind_eq_ok.mp h
    exact macCount_of_new h
  | tensorCore e =>
    dsimp only [TensorCoreEngine.estimate, TensorCoreEngine.estimateWith] at h
    split_ifs at h
    rw [macCount_of_new h]
    exact Nat.mul_one _
  | wmma e =>
    obtain ⟨perFragDma, -, h⟩ := bind_eq_ok.mp h
    rw [macCount_of_new h]
    exact Nat.mul_one _
  | gmma e =>
    obtain ⟨weightDma, -, h⟩ := bind_eq_ok.mp h
    exact macCount_of_new h
  | inputStationary e => exact macCount_of_new h
  | fsa e => exact macCount_of_new h

/-- An estimate of a pair charges the work of its product twice. -/
theorem pair_macCount (h : e.estimateWeightCachePair m k n = .ok r) :
    r.macCount = m * k * n + m * k * n := by
  have htwo : m * k * n * 2 = m * k * n + m * k * n := Nat.mul_two _
  rw [← htwo]
  unfold estimateWeightCachePair at h
  cases e with
  | systolic e => exact macCount_of_new h
  | osSystolic e =>
    obtain ⟨weightDma, -, h⟩ := bind_eq_ok.mp h
    exact macCount_of_new h
  | block e => exact macCount_of_new h
  | tensorCore e =>
    dsimp only [TensorCoreEngine.estimateWeightCachePair, TensorCoreEngine.estimateWith] at h
    split_ifs at h
    exact macCount_of_new h
  | wmma e =>
    obtain ⟨perFragDma, -, h⟩ := bind_eq_ok.mp h
    exact macCount_of_new h
  | gmma e => exact macCount_of_new h
  | inputStationary e => exact macCount_of_new h
  | fsa e =>
    obtain ⟨single, hsingle, h⟩ := bind_eq_ok.mp h
    rw [macCount_of_new h, FsaEngine.pairFields, macCount_of_new hsingle]
    exact Nat.mul_comm _ _

end Engine

end Engines

namespace Explorer

open Engines Residency Simulator

variable {py : Builtins} {c : HardwareConfig} {e : Engine} {trace : List Gemm}

/-! ### The results that are charged -/

/-- The work of a product. -/
def macsOf (g : Gemm) : ℕ := g.m * g.k * g.n

/-- What an engine estimates for a product, or for two that are merged. -/
def stepEstimate (e : Engine) (s : Gemm × Option Gemm) : Except Failure EngineResult :=
  if s.2.isSome then e.estimateWeightCachePair s.1.m s.1.k s.1.n
  else e.estimate s.1.m s.1.k s.1.n

theorem stepEstimate_macCount {s : Gemm × Option Gemm} {r : EngineResult}
    (h : stepEstimate e s = .ok r) :
    r.macCount = macsOf s.1 + s.2.elim 0 fun _ => macsOf s.1 := by
  unfold stepEstimate at h
  obtain ⟨g, next⟩ := s
  cases next with
  | none => exact Engine.estimate_macCount h
  | some next => exact Engine.pair_macCount h

/-- The results that are charged for a trace. -/
def chargedResults (e : Engine) (merges : Gemm → Gemm → Bool) (trace : List Gemm) :
    Except Failure (List EngineResult) :=
  (mergeSteps merges trace).mapM (stepEstimate e)

/-- All work of a trace is charged. -/
def MacsConserved (e : Engine) (merges : Gemm → Gemm → Bool) (trace : List Gemm) : Prop :=
  ∃ results, chargedResults e merges trace = .ok results ∧
    (results.map (·.macCount)).sum = (trace.map macsOf).sum

/-- The first of the merged products have as much work as the second ones. -/
def MergedAlike (merges : Gemm → Gemm → Bool) (trace : List Gemm) : Prop :=
  sumMerged (fun g _ => macsOf g) (mergeSteps merges trace) =
    sumMerged (fun _ next => macsOf next) (mergeSteps merges trace)

theorem macsConserved_iff_of_charged {merges : Gemm → Gemm → Bool} {results : List EngineResult}
    (h : chargedResults e merges trace = .ok results) :
    MacsConserved e merges trace ↔ MergedAlike merges trace := by
  have hcount : ((mergeSteps merges trace).map fun s =>
      macsOf s.1 + s.2.elim 0 fun _ => macsOf s.1).sum = (results.map (·.macCount)).sum :=
    sum_map_eq_of_forall₂ (mapM_eq_ok.mp h) fun s r hr => (stepEstimate_macCount hr).symm
  have hexists : MacsConserved e merges trace ↔
      (results.map (·.macCount)).sum = (trace.map macsOf).sum := by
    unfold MacsConserved
    rw [h]
    simp
  rw [hexists, ← hcount]
  exact sum_doubled_mergeSteps macsOf trace

/-! ### The runs -/

/-- If every step of a run that returns needs a value, all values are there. -/
theorem exists_mapM_of_foldlM {ε σ α β : Type} {step : σ → α → Except ε σ} {f : α → Except ε β}
    {l : List α} {s s' : σ} (hstep : ∀ s a s', step s a = .ok s' → ∃ b, f a = .ok b)
    (h : l.foldlM step s = .ok s') : ∃ bs, l.mapM f = .ok bs := by
  induction l generalizing s with
  | nil => exact ⟨[], rfl⟩
  | cons a l ih =>
    rw [List.foldlM_cons] at h
    obtain ⟨next, ha, h⟩ := bind_eq_ok.mp h
    obtain ⟨b, hb⟩ := hstep s a next ha
    obtain ⟨bs, hbs⟩ := ih h
    exact ⟨b :: bs, mapM_eq_ok.mpr (.cons hb (mapM_eq_ok.mp hbs))⟩

/-- Add a step to the totals of a layer. -/
def addStep (e : Engine) (t : OpsTotals) (s : Gemm × Option Gemm) : Except Failure OpsTotals := do
  let result ← stepEstimate e s
  .ok (t.add result s.1.opName)

/-- The run through a layer takes its steps one after the other. -/
theorem opsLoop_eq (e : Engine) (weightCache : Bool) (ops : List Gemm) (t : OpsTotals) :
    opsLoop e weightCache ops t =
      (mergeSteps (mergesByName weightCache) ops).foldlM (addStep e) t := by
  induction ops, t using opsLoop.induct weightCache with
  | case1 t => rfl
  | case2 t g =>
    simp only [opsLoop, mergeSteps, List.foldlM_cons, List.foldlM_nil]
    exact (bind_pure _).symm
  | case3 t g next rest hmerges ih =>
    simp only [opsLoop, mergeSteps, hmerges, if_true, List.foldlM_cons, addStep, bind_assoc]
    exact bind_congr ih
  | case4 t g next rest hmerges ih =>
    simp only [opsLoop, mergeSteps, hmerges, if_false, List.foldlM_cons, addStep, bind_assoc,
      Bool.false_eq_true]
    exact bind_congr ih

theorem exists_charged_of_opsLoop {weightCache : Bool} {t t' : OpsTotals}
    (h : opsLoop e weightCache trace t = .ok t') :
    ∃ results, chargedResults e (mergesByName weightCache) trace = .ok results := by
  rw [opsLoop_eq] at h
  refine exists_mapM_of_foldlM (fun t s t' hstep => ?_) h
  obtain ⟨result, hresult, -⟩ := bind_eq_ok.mp hstep
  exact ⟨result, hresult⟩

variable {sim : NPUSimulator}

/-- The steps of the simulation are those of its merges. -/
theorem steps_eq (sim : NPUSimulator) (trace : List Gemm) :
    sim.steps trace = (mergeSteps sim.merges trace).map fun s => ⟨s.1, s.2.isSome⟩ := by
  induction trace using NPUSimulator.steps.induct sim with
  | case1 => rfl
  | case2 g => rfl
  | case3 g next rest hmerges ih => simp [NPUSimulator.steps, mergeSteps, hmerges, ih]
  | case4 g next rest hmerges ih => simp [NPUSimulator.steps, mergeSteps, hmerges, ih]

theorem exists_charged_of_decodeLoop {st st' : DecodeState}
    (h : sim.decodeLoop py trace st = .ok st') :
    ∃ results, chargedResults sim.mxu sim.merges trace = .ok results := by
  rw [NPUSimulator.decodeLoop_eq, steps_eq, List.foldlM_map] at h
  refine exists_mapM_of_foldlM (fun st s st' hstep => ?_) h
  unfold NPUSimulator.runStep at hstep
  dsimp only at hstep
  unfold stepEstimate
  cases hpaired : s.2.isSome with
  | true =>
    rw [hpaired, if_pos rfl] at hstep
    obtain ⟨-, result, -, -, hresult, -⟩ := NPUSimulator.pairStep_spec hstep
    exact ⟨result, hresult⟩
  | false =>
    rw [hpaired, if_neg Bool.false_ne_true] at hstep
    obtain ⟨-, -, result, -, -, hresult, -⟩ := NPUSimulator.singleStep_spec hstep
    exact ⟨result, hresult⟩

/-! ### The work of a trace -/

/-- The simulation of a decode step and that of a layer charge all work of a trace. -/
structure WorkConserved (sim : NPUSimulator) (e : Engine) (c : HardwareConfig)
    (trace : List Gemm) : Prop where
  decode : MacsConserved sim.mxu sim.merges trace
  layer : MacsConserved e (mergesByName (weightCache c)) trace

/-- In both simulations, the first of the merged products have as much work as the second ones. -/
structure PairsAlike (sim : NPUSimulator) (c : HardwareConfig) (trace : List Gemm) : Prop where
  decode : MergedAlike sim.merges trace
  layer : MergedAlike (mergesByName (weightCache c)) trace

/-- What is charged in two runs that return. -/
private theorem workConserved_of_runs {report : SimulationReport} {totals : OpsTotals}
    (hdecode : sim.simulateDecode py trace = .ok report)
    (hengine : createEngine py c emptyGraph = .ok e)
    (hlayer : simulateOps py c trace = .ok totals) :
    WorkConserved sim e c trace ↔ PairsAlike sim c trace := by
  unfold NPUSimulator.simulateDecode at hdecode
  obtain ⟨st, hloop, -⟩ := bind_eq_ok.mp hdecode
  obtain ⟨results, hresults⟩ := exists_charged_of_decodeLoop hloop
  unfold simulateOps at hlayer
  rw [hengine, bind_eq_ok_left] at hlayer
  obtain ⟨results', hresults'⟩ := exists_charged_of_opsLoop hlayer
  have hdecode' := macsConserved_iff_of_charged hresults
  have hlayer' := macsConserved_iff_of_charged hresults'
  constructor
  · intro h
    exact ⟨hdecode'.mp h.decode, hlayer'.mp h.layer⟩
  · intro h
    exact ⟨hdecode'.mpr h.decode, hlayer'.mpr h.layer⟩

/-- Two runs that return charge all work of a trace exactly when the merged products have as much
work as those they are merged with. -/
theorem workConserved_iff {report : SimulationReport} {totals : OpsTotals}
    (hdecode : sim.simulateDecode py trace = .ok report)
    (hengine : createEngine py c emptyGraph = .ok e)
    (hlayer : simulateOps py c trace = .ok totals) :
    WorkConserved sim e c trace ↔ PairsAlike sim c trace :=
  workConserved_of_runs hdecode hengine hlayer

/-! ### A gate that is wider than its partner -/

/-- A configuration of a small array that caches the weights of gated layers. -/
def gatedConfig : SimulatorConfig :=
  { narrowMemory with optimizations := { weightCache := some true } }

/-- A gated layer with a wide gate. -/
def gatedTrace : List Gemm := [⟨1, 64, 64, 0, "FFN_gate"⟩, ⟨1, 64, 32, 0, "FFN_up"⟩]

/-- Both simulations of the layer succeed. -/
theorem gated_sample :
    ∃ sim e report totals, NPUSimulator.create sampleBuiltins gatedConfig queryGraph = .ok sim ∧
      createEngine sampleBuiltins gatedConfig.toHardwareConfig emptyGraph = .ok e ∧
      sim.simulateDecode sampleBuiltins gatedTrace = .ok report ∧
      simulateOps sampleBuiltins gatedConfig.toHardwareConfig gatedTrace = .ok totals := by
  have hdecode : ((NPUSimulator.create sampleBuiltins gatedConfig queryGraph).toOption.any
      fun sim => (sim.simulateDecode sampleBuiltins gatedTrace).toOption.isSome) = true := by
    decide +kernel
  have hengine : (createEngine sampleBuiltins gatedConfig.toHardwareConfig
      emptyGraph).toOption.isSome = true := by decide +kernel
  have hlayer : (simulateOps sampleBuiltins gatedConfig.toHardwareConfig
      gatedTrace).toOption.isSome = true := by decide +kernel
  obtain ⟨sim, hsim, hdecode⟩ := (Option.any_eq_true _ _).mp hdecode
  obtain ⟨report, hreport⟩ := Option.isSome_iff_exists.mp hdecode
  obtain ⟨e, he⟩ := Option.isSome_iff_exists.mp hengine
  obtain ⟨totals, htotals⟩ := Option.isSome_iff_exists.mp hlayer
  exact ⟨sim, e, report, totals, toOption_eq_some.mp hsim, toOption_eq_some.mp he,
    toOption_eq_some.mp hreport, toOption_eq_some.mp htotals⟩

theorem workConserved_iff_gated :
    ∃ sim e, NPUSimulator.create sampleBuiltins gatedConfig queryGraph = .ok sim ∧
      createEngine sampleBuiltins gatedConfig.toHardwareConfig emptyGraph = .ok e ∧
      (WorkConserved sim e gatedConfig.toHardwareConfig gatedTrace ↔
        PairsAlike sim gatedConfig.toHardwareConfig gatedTrace) := by
  obtain ⟨sim, e, report, totals, hsim, he, hreport, htotals⟩ := gated_sample
  exact ⟨sim, e, hsim, he, workConserved_iff hreport he htotals⟩

/-- A gate with twice the work of its partner is charged twice. -/
theorem gate_charged_twice :
    ¬∀ (py : Builtins) (c : SimulatorConfig) (graph : WorkloadGraph) (sim : NPUSimulator)
      (e : Engine) (trace : List Gemm) (report : SimulationReport) (totals : OpsTotals),
      NPUSimulator.create py c graph = .ok sim → weightCache c.toHardwareConfig = true →
      createEngine py c.toHardwareConfig emptyGraph = .ok e →
      (∀ g ∈ trace, 0 < g.m ∧ 0 < g.k ∧ 0 < g.n) →
      sim.simulateDecode py trace = .ok report →
      simulateOps py c.toHardwareConfig trace = .ok totals →
      WorkConserved sim e c.toHardwareConfig trace := by
  intro h
  obtain ⟨sim, e, report, totals, hsim, he, hreport, htotals⟩ := gated_sample
  have hconserved := h _ _ _ sim e _ report totals hsim rfl he (by decide) hreport htotals
  have halike := (workConserved_of_runs hreport he htotals).mp hconserved
  have hlayer : ¬ MergedAlike (mergesByName (weightCache gatedConfig.toHardwareConfig))
      gatedTrace := by
    unfold MergedAlike
    decide
  exact hlayer halike.layer

end Explorer

end NpuArc
