import NpuArc.Cv.CvSim
import NpuArc.Engines.Creation
import NpuArc.Library.Pipeline
import NpuArc.Library.Lists
import Mathlib.Algebra.BigOperators.Ring.List
import Mathlib.Algebra.Order.BigOperators.GroupWithZero.List
import Mathlib.Tactic.Positivity

/-!
# The work of layers in traces

The entries of a trace should charge each layer for its elements. The entry of an addition or a
multiplication has no dimensions, and that of a pooling no cycles, so the vector unit is charged one
cycle and the unit of special functions none, and neither has activations.
-/

namespace NpuArc

namespace Cv

open Engines Residency

variable {estimate : ℤ → ℤ → ℤ → Except Failure EngineResult} {c : CvConfig}
  {layers : List ImportedLayer} {trace : List TraceEntry} {totals : CvTotals}

/-! ### Runs -/

/-- What a run adds to its totals. -/
structure Added (estimate : ℤ → ℤ → ℤ → Except Failure EngineResult) (c : CvConfig)
    (trace : List TraceEntry) (totals totals' : CvTotals) (results : List LayerResult) : Prop where
  charged : List.Forall₂ (fun entry r => simulateEntry estimate c entry = .ok r) trace results
  layers : totals'.layers = totals.layers ++ results
  cycles : totals'.totalCycles = totals.totalCycles + (results.map (·.cycles)).sum
  activations : totals'.totalActivationBytes =
    totals.totalActivationBytes + (trace.map (activationBytes c)).sum

theorem exists_added {totals' : CvTotals}
    (h : trace.foldlM (addEntry estimate c) totals = .ok totals') :
    ∃ results, Added estimate c trace totals totals' results := by
  induction trace generalizing totals with
  | nil =>
    cases h
    exact ⟨[], .nil, by simp, by simp, by simp⟩
  | cons entry trace ih =>
    rw [List.foldlM_cons] at h
    obtain ⟨next, hstep, h⟩ := bind_eq_ok.mp h
    obtain ⟨results, hadded⟩ := ih h
    unfold addEntry at hstep
    obtain ⟨r, hr, hstep⟩ := bind_eq_ok.mp hstep
    cases hstep
    refine ⟨r :: results, .cons hr hadded.charged, ?_, ?_, ?_⟩
    · rw [hadded.layers, List.append_assoc, List.singleton_append]
    · rw [hadded.cycles, List.map_cons, List.sum_cons, add_assoc]
    · rw [hadded.activations, List.map_cons, List.sum_cons, add_assoc]

/-- Each entry of a trace is charged once, and the volume is that of all entries. -/
theorem simulateTrace_spec (h : simulateTrace estimate c trace = .ok totals) :
    Added estimate c trace {} totals totals.layers := by
  obtain ⟨results, hadded⟩ := exists_added h
  have hlayers : totals.layers = results := hadded.layers
  rwa [hlayers]

/-! ### Entries -/

/-- The operators on the vector unit. -/
def vectorOpTypes : List String := ["Add", "Mul"]

/-- The operator that pools all positions. -/
def poolOpType : String := "GlobalAveragePool"

/-- The operators on the unit of special functions. -/
def specialOpTypes : List String := sfuOpTypes ++ [poolOpType]

theorem typeMap_add : typeMap.get? "Add" = some "add" := by decide +kernel

theorem typeMap_mul : typeMap.get? "Mul" = some "mul" := by decide +kernel

theorem typeMap_pool : typeMap.get? poolOpType = some "global_avg_pool" := by decide +kernel

/-- The entry of a layer that is neither a product nor an activation. -/
theorem entryFromLayer_plain {layer : ImportedLayer} {entry : TraceEntry} {t : String}
    (hmap : typeMap.get? layer.type = some t)
    (hother : layer.type ∉ ["Conv", "depthwise_conv"] ∧ layer.type ≠ "Gemm" ∧
      layer.type ∉ sfuOpTypes)
    (h : entryFromLayer layer = .ok entry) : entry = { type := t, name := layer.name } := by
  unfold entryFromLayer at h
  rw [if_neg hother.1, if_neg hother.2.1, if_neg hother.2.2, Dict.contains, hmap,
    Option.isSome_some, if_pos rfl] at h
  cases h
  rfl

theorem entryFromLayer_vector {layer : ImportedLayer} {entry : TraceEntry}
    (htype : layer.type ∈ vectorOpTypes) (h : entryFromLayer layer = .ok entry) :
    ∃ t ∈ elementwiseTypes, entry = { type := t, name := layer.name } := by
  rcases List.mem_pair.mp htype with htype | htype
  · exact ⟨"add", by decide, entryFromLayer_plain (by rw [htype, typeMap_add])
      (by rw [htype]; decide) h⟩
  · exact ⟨"mul", by decide, entryFromLayer_plain (by rw [htype, typeMap_mul])
      (by rw [htype]; decide) h⟩

theorem entryFromLayer_pool {layer : ImportedLayer} {entry : TraceEntry}
    (htype : layer.type = poolOpType) (h : entryFromLayer layer = .ok entry) :
    entry = { type := "global_avg_pool", name := layer.name } :=
  entryFromLayer_plain (by rw [htype, typeMap_pool]) (by rw [htype]; decide) h

theorem entryFromLayer_activation {layer : ImportedLayer} {entry : TraceEntry}
    (htype : layer.type ∈ sfuOpTypes) (h : entryFromLayer layer = .ok entry) :
    entry.type ∈ sfuTypes ∧ entry.sfuCycles = computeSfuCycles layer.outShape := by
  have hmapped : ∀ op ∈ sfuOpTypes, (typeMap.get? op).getD op ∈ sfuTypes := by decide +kernel
  have hother : ∀ op ∈ sfuOpTypes, op ∉ ["Conv", "depthwise_conv"] ∧ op ≠ "Gemm" := by decide
  unfold entryFromLayer at h
  rw [if_neg (hother _ htype).1, if_neg (hother _ htype).2, if_pos htype] at h
  cases h
  exact ⟨hmapped _ htype, rfl⟩

/-- The elements of the product of a layer, none if it is no product. -/
def ImportedLayer.productElements (layer : ImportedLayer) : ℤ :=
  if layer.type ∈ ["Conv", "depthwise_conv"] then
    layer.convGemm.toOption.elim 0 fun g => g.m * g.n
  else if layer.type = "Gemm" then dimension layer.outShape 1 0
  else 0

/-- Only products have activations. -/
theorem activationBytes_eq {layer : ImportedLayer} {entry : TraceEntry}
    (h : entryFromLayer layer = .ok entry) :
    activationBytes c entry = layer.productElements * c.bytesPerElement := by
  have hproducts : ∀ t ∈ ["pointwise_conv", "depthwise_conv", "gemm"], isFreeOrFused t = false := by
    decide +kernel
  unfold entryFromLayer at h
  unfold activationBytes ImportedLayer.productElements
  by_cases hconv : layer.type ∈ ["Conv", "depthwise_conv"]
  · rw [if_pos hconv] at h ⊢
    obtain ⟨g, hg, h⟩ := bind_eq_ok.mp h
    cases h
    have hfree : isFreeOrFused (if layer.type = "depthwise_conv" then "depthwise_conv"
        else "pointwise_conv") = false := by
      split_ifs
      · exact hproducts _ (by decide)
      · exact hproducts _ (by decide)
    rw [hg]
    simp [hfree, estimateActivationBytes, Except.toOption]
  rw [if_neg hconv] at h ⊢
  by_cases hgemm : layer.type = "Gemm"
  · rw [if_pos hgemm] at h ⊢
    cases h
    simp [gemmFromLayer, hproducts "gemm" (by decide), estimateActivationBytes]
  rw [if_neg hgemm] at h ⊢
  have hzero : entry.m = 0 ∧ entry.inShape = none := by
    split_ifs at h
    · cases h
      exact ⟨rfl, rfl⟩
    · cases h
      exact ⟨rfl, rfl⟩
  rw [estimateActivationBytes, hzero.1, hzero.2]
  simp

/-! ### Charges -/

theorem cycles_vector {layer : ImportedLayer} {entry : TraceEntry} {r : LayerResult}
    (htype : layer.type ∈ vectorOpTypes) (hentry : entryFromLayer layer = .ok entry)
    (hr : simulateEntry estimate c entry = .ok r) : r.cycles = 1 := by
  obtain ⟨t, ht, rfl⟩ := entryFromLayer_vector htype hentry
  have hother : ∀ t ∈ elementwiseTypes, t ∉ ["pointwise_conv", "depthwise_conv", "gemm"] ∧
      t ∉ sfuTypes := by decide
  rw [simulateEntry, if_neg (hother t ht).1, if_neg (hother t ht).2, if_pos ht] at hr
  cases hr
  simp [simulateElementwise, LayerResult.ofCycles]

theorem cycles_special {entry : TraceEntry} {r : LayerResult} (htype : entry.type ∈ sfuTypes)
    (hr : simulateEntry estimate c entry = .ok r) : r.cycles = entry.sfuCycles := by
  have hother : ∀ t ∈ sfuTypes, t ∉ ["pointwise_conv", "depthwise_conv", "gemm"] := by decide
  rw [simulateEntry, if_neg (hother _ htype), if_pos htype] at hr
  cases hr
  rfl

/-! ### The work of all layers -/

/-- The elements that the layers on the two units put out. -/
def outputElements (layers : List ImportedLayer) : ℕ :=
  ((layers.filter fun layer => decide (layer.type ∈ vectorOpTypes ++ specialOpTypes)).map
    fun layer => elementCount layer.outShape).sum

/-- Each layer is charged for its elements, and the volume of the activations holds them. -/
structure CarriesWork (c : CvConfig) (layers : List ImportedLayer) (totals : CvTotals) : Prop where
  vector : List.Forall₂ (fun layer r => layer.type ∈ vectorOpTypes →
    ((elementCount layer.outShape ⌈/⌉ (c.vectorWidth : ℕ) : ℕ) : ℤ) ≤ r.cycles) layers totals.layers
  special : List.Forall₂ (fun layer r => layer.type ∈ specialOpTypes →
    ((elementCount layer.outShape ⌈/⌉ sfuWidth : ℕ) : ℤ) ≤ r.cycles) layers totals.layers
  activations : outputElements layers * c.bytesPerElement ≤ totals.totalActivationBytes

/-- One cycle is enough for the vector unit, nothing is pooled, and the products put out at least as
many elements as the other layers. -/
structure WorkFits (c : CvConfig) (layers : List ImportedLayer) : Prop where
  vector : ∀ layer ∈ layers, layer.type ∈ vectorOpTypes →
    elementCount layer.outShape ≤ c.vectorWidth
  pooled : ∀ layer ∈ layers, layer.type = poolOpType → layer.outShape = none
  activations : (outputElements layers : ℤ) ≤ (layers.map (·.productElements)).sum

/-- A shape has elements. -/
theorem elementCount_eq_zero_iff {shape : Option (List ℤ)} :
    elementCount shape = 0 ↔ shape = none := by
  cases shape with
  | none => simp [elementCount]
  | some dims =>
    have hpos : 0 < (dims.map fun d => (max d 1).toNat).prod := by
      refine List.prod_pos ?_
      intro a ha
      obtain ⟨d, -, rfl⟩ := List.mem_map.mp ha
      omega
    simp only [elementCount, Option.elim_some, reduceCtorEq, iff_false]
    exact hpos.ne'

theorem CvConfig.bytesPerElement_pos (c : CvConfig) : 0 < c.bytesPerElement := by
  have hbits : 0 < orDefault c.mac.activationPrecisionBits 8 := orDefault_pos (by decide)
  unfold CvConfig.bytesPerElement
  positivity

/-- What the layers of a run are charged. -/
theorem charged_of_run (htrace : traceEntries layers = .ok trace)
    (hrun : simulateTrace estimate c trace = .ok totals) :
    List.Forall₂ (fun layer r => ∃ entry, entryFromLayer layer = .ok entry ∧
      simulateEntry estimate c entry = .ok r) layers totals.layers :=
  forall₂_comp (mapM_eq_ok.mp htrace) (simulateTrace_spec hrun).charged

/-- The volume of a run is that of the products. -/
theorem totalActivationBytes_of_run (htrace : traceEntries layers = .ok trace)
    (hrun : simulateTrace estimate c trace = .ok totals) :
    totals.totalActivationBytes =
      ((layers.map (·.productElements)).sum : ℤ) * c.bytesPerElement := by
  have hsum : (layers.map fun layer => (layer.productElements : ℚ) * c.bytesPerElement).sum =
      (trace.map (activationBytes c)).sum :=
    sum_map_eq_of_forall₂ (mapM_eq_ok.mp htrace) fun layer entry h => (activationBytes_eq h).symm
  rw [(simulateTrace_spec hrun).activations, ← hsum, List.sum_map_mul_right, Int.cast_list_sum,
    List.map_map]
  exact zero_add _

/-- What is carried in a run. -/
private theorem carriesWork_of_run (htrace : traceEntries layers = .ok trace)
    (hrun : simulateTrace estimate c trace = .ok totals) :
    CarriesWork c layers totals ↔ WorkFits c layers := by
  have hcharged := charged_of_run htrace hrun
  have hvector := forall₂_iff_forall_mem hcharged
    (P := fun layer r => layer.type ∈ vectorOpTypes →
      ((elementCount layer.outShape ⌈/⌉ (c.vectorWidth : ℕ) : ℕ) : ℤ) ≤ r.cycles)
    (C := fun layer => layer.type ∈ vectorOpTypes → elementCount layer.outShape ≤ c.vectorWidth)
    (by
      rintro layer r ⟨entry, hentry, hr⟩
      refine forall_congr' fun htype => ?_
      have hone : ((elementCount layer.outShape ⌈/⌉ (c.vectorWidth : ℕ) : ℕ) : ℤ) ≤ 1 ↔
          elementCount layer.outShape ⌈/⌉ (c.vectorWidth : ℕ) ≤ 1 := by omega
      rw [cycles_vector htype hentry hr, hone, ceilDiv_le_iff_le_mul c.vectorWidth.pos, mul_one])
  have hspecial := forall₂_iff_forall_mem hcharged
    (P := fun layer r => layer.type ∈ specialOpTypes →
      ((elementCount layer.outShape ⌈/⌉ sfuWidth : ℕ) : ℤ) ≤ r.cycles)
    (C := fun layer => layer.type = poolOpType → layer.outShape = none)
    (by
      rintro layer r ⟨entry, hentry, hr⟩
      by_cases hpool : layer.type = poolOpType
      · have hmem : layer.type ∈ specialOpTypes := by rw [hpool]; decide
        obtain rfl := entryFromLayer_pool hpool hentry
        have hsfu : "global_avg_pool" ∈ sfuTypes := by decide
        have hzero : elementCount layer.outShape ⌈/⌉ sfuWidth ≤ 0 ↔
            elementCount layer.outShape ≤ sfuWidth * 0 := ceilDiv_le_iff_le_mul (by decide)
        have hcast : ((elementCount layer.outShape ⌈/⌉ sfuWidth : ℕ) : ℤ) ≤ ((0 : ℕ) : ℤ) ↔
            elementCount layer.outShape ⌈/⌉ sfuWidth ≤ 0 := Int.ofNat_le
        rw [imp_iff_right hmem, imp_iff_right hpool, cycles_special hsfu hr, hcast, hzero,
          Nat.mul_zero, Nat.le_zero, elementCount_eq_zero_iff]
      · refine iff_of_true (fun hmem => ?_) (fun h => absurd h hpool)
        have hactivation : layer.type ∈ sfuOpTypes :=
          (List.mem_append.mp hmem).resolve_right fun h => hpool (List.mem_singleton.mp h)
        obtain ⟨htype, hsfu⟩ := entryFromLayer_activation hactivation hentry
        rw [cycles_special htype hr, hsfu]
        exact le_rfl)
  have hactivations : outputElements layers * c.bytesPerElement ≤ totals.totalActivationBytes ↔
      (outputElements layers : ℤ) ≤ (layers.map (·.productElements)).sum := by
    rw [totalActivationBytes_of_run htrace hrun,
      mul_le_mul_iff_of_pos_right c.bytesPerElement_pos]
    exact_mod_cast Iff.rfl
  constructor
  · intro h
    exact ⟨hvector.mp h.vector, hspecial.mp h.special, hactivations.mp h.activations⟩
  · intro h
    exact ⟨hvector.mpr h.vector, hspecial.mpr h.pooled, hactivations.mpr h.activations⟩

/-- A trace carries the work of its layers exactly when a cycle is enough for the vector unit,
nothing is pooled, and the products put out as many elements as the other layers. -/
theorem carriesWork_iff (htrace : traceEntries layers = .ok trace)
    (hrun : simulateTrace estimate c trace = .ok totals) :
    CarriesWork c layers totals ↔ WorkFits c layers :=
  carriesWork_of_run htrace hrun

/-! ### The sum of two blocks -/

/-- The sum at the end of a block with a residual connection. -/
def residualAdd : ImportedLayer where
  type := "Add"
  name := "/features.3/Add"
  outShape := some [0, 24, 28, 28]

/-- The entry of the sum. -/
def residualEntry : TraceEntry := { type := "add", name := "/features.3/Add" }

theorem residual_trace : traceEntries [residualAdd] = .ok [residualEntry] :=
  toOption_eq_some.mp (by decide +kernel)

/-- The totals of the sum, for any engine. -/
theorem exists_residual_totals (estimate : ℤ → ℤ → ℤ → Except Failure EngineResult)
    (c : CvConfig) : ∃ totals, simulateTrace estimate c [residualEntry] = .ok totals := by
  have hother : residualEntry.type ∉ ["pointwise_conv", "depthwise_conv", "gemm"] ∧
      residualEntry.type ∉ sfuTypes ∧ residualEntry.type ∈ elementwiseTypes := by decide
  have hentry : simulateEntry estimate c residualEntry =
      .ok (simulateElementwise residualEntry c.vectorWidth) := by
    rw [simulateEntry, if_neg hother.1, if_neg hother.2.1, if_pos hother.2.2]
  rw [simulateTrace, List.foldlM_cons, addEntry, hentry]
  exact ⟨_, rfl⟩

/-- The estimate of an engine for sizes that are not negative. -/
def engineEstimate (e : Engine) (m k n : ℤ) : Except Failure EngineResult :=
  e.estimate m.toNat k.toNat n.toNat

/-- A configuration of a square array of blocks. -/
def blockConfig : CvConfig where
  toHardwareConfig := (HardwareConfigV2.squareArray "block" 127).toConfig

theorem carriesWork_iff_residual :
    ∃ e totals, createEngine sampleBuiltins blockConfig.toHardwareConfig emptyGraph = .ok e ∧
      simulateTrace (engineEstimate e) blockConfig [residualEntry] = .ok totals ∧
      (CarriesWork blockConfig [residualAdd] totals ↔ WorkFits blockConfig [residualAdd]) := by
  obtain ⟨e, he, -, -⟩ := HardwareConfigV2.exists_squareArray "block" 127 (by decide)
  obtain ⟨totals, htotals⟩ := exists_residual_totals (engineEstimate e) blockConfig
  exact ⟨e, totals, he, htotals, carriesWork_iff residual_trace htotals⟩

/-- The sum of 18816 elements is charged a single cycle. -/
theorem residual_not_carried :
    ¬∀ (py : Builtins) (c : CvConfig) (e : Engine) (layers : List ImportedLayer)
      (trace : List TraceEntry) (totals : CvTotals),
      createEngine py c.toHardwareConfig emptyGraph = .ok e →
      traceEntries layers = .ok trace → simulateTrace (engineEstimate e) c trace = .ok totals →
      CarriesWork c layers totals := by
  intro h
  obtain ⟨e, he, -, -⟩ := HardwareConfigV2.exists_squareArray "block" 127 (by decide)
  obtain ⟨totals, htotals⟩ := exists_residual_totals (engineEstimate e) blockConfig
  have hcarries := h sampleBuiltins blockConfig e _ _ _ he residual_trace htotals
  have hfits := (carriesWork_of_run residual_trace htotals).mp hcarries
  have hmem : residualAdd ∈ [residualAdd] := List.mem_singleton_self _
  have hle := hfits.vector residualAdd hmem (by decide)
  exact absurd hle (by decide)

end Cv

end NpuArc
