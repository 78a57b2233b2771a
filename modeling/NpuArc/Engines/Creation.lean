import NpuArc.Engines.Registry
import NpuArc.Memory.Safety

/-!
# Creation of engines

An engine has the parameters of its configuration. Without a graph there are no weights to place,
so its bandwidth for weights is that of the external memory. An engine of an accepted
configuration answers unless it divides by a clock, a number of cores or a bandwidth of zero.
-/

namespace NpuArc

namespace Engines

open Residency

namespace MacEngine

/-- The parameters that an engine reads from a configuration. -/
structure Parsed (c : HardwareConfig) (e : MacEngine) : Prop where
  height : e.height = orDefault c.mac.arrayHeight 128
  width : e.width = orDefault c.mac.arrayWidth 128
  wBits : e.wBits = orDefault c.mac.weightPrecisionBits 4
  aBits : e.aBits = orDefault c.mac.activationPrecisionBits 8
  opsPerMac : e.opsPerMac = orDefault c.mac.opsPerMac 2
  fMhz : e.fMhz = frequencyOf c
  fMhz_pos : 0 < e.fMhz
  bwRaw : e.bwRaw = PosRat.orDefault c.memory.bandwidthGbps 51.2 * 1000 / e.fMhz
  dramEfficiency : e.dramEfficiency = UnitRat.orDefault c.memory.dramEfficiency 0.90
  bwMultiplier : e.bwMultiplier = PosRat.orDefault c.optimizations.dmaBwMultiplier 1
  effBwWeight : e.effBwWeight = e.externalBw
  l2SramKb : e.l2SramKb = (c.sram.map fun sram => orDefault sram.l2SharedKb 2048).getD 2048
  wbufKb : e.wbufKb = e.l2SramKb * 6 / 10

variable {c : HardwareConfig} {e : MacEngine}

/-- The parameters are those of the configuration. -/
theorem parseConfig_parsed (h : parseConfig c = .ok e) : Parsed c e := by
  unfold parseConfig at h
  dsimp only at h
  split at h
  · cases h
  · next hraw =>
    cases h
    obtain ⟨hpos, hbw⟩ := bandwidthGbpsToBytesPerCycle_eq_ok.mp hraw
    exact
      { height := rfl
        width := rfl
        wBits := rfl
        aBits := rfl
        opsPerMac := rfl
        fMhz := rfl
        fMhz_pos := by exact_mod_cast hpos
        bwRaw := hbw.symm
        dramEfficiency := rfl
        bwMultiplier := rfl
        effBwWeight := rfl
        l2SramKb := rfl
        wbufKb := rfl }

/-- The parameters are read exactly when the clock is at least a megahertz. -/
theorem exists_parseConfig_iff : (∃ e, parseConfig c = .ok e) ↔ 0 < frequencyOf c := by
  constructor
  · rintro ⟨e, h⟩
    have hparsed := parseConfig_parsed h
    rw [← hparsed.fMhz]
    exact hparsed.fMhz_pos
  · intro hpos
    unfold parseConfig
    dsimp only
    split
    · next err herr =>
      have hcast : (0 : ℚ) < frequencyOf c := by exact_mod_cast hpos
      rw [bandwidthGbpsToBytesPerCycle, if_neg (not_le.mpr hcast)] at herr
      cases herr
    · exact ⟨_, rfl⟩

end MacEngine

/-! ### Planning without a graph -/

variable {py : Builtins} {c : HardwareConfig} {tiers : List BandwidthTier}

/-- The tiers of a configuration have no reserve. -/
theorem buildHierarchyFromConfig_reserve (h : buildHierarchyFromConfig py c = .ok tiers) :
    ∀ tier ∈ tiers, tier.reserveBytes = 0 := by
  have hbuffers : ∀ tier ∈ c.sram.toList.map sramTier, tier.reserveBytes = 0 := by
    intro tier htier
    obtain ⟨sram, -, rfl⟩ := List.mem_map.mp htier
    rfl
  unfold buildHierarchyFromConfig at h
  dsimp only at h
  split_ifs at h <;> cases h <;> intro tier htier
  · rcases List.mem_append.mp htier with htier | htier
    · exact hbuffers tier htier
    · rcases List.mem_pair.mp htier with rfl | rfl <;> rfl
  · rcases List.mem_append.mp htier with htier | htier
    · exact hbuffers tier htier
    · rw [List.mem_singleton.mp htier]
      rfl

theorem validateTiers_hierarchyOf (h : ∀ tier ∈ tiers, tier.reserveBytes = 0) :
    validateTiers (hierarchyOf tiers) = .ok () := by
  refine forM_eq_ok.mpr fun tier htier => ?_
  obtain ⟨t, ht, rfl⟩ := List.mem_map.mp htier
  rw [if_neg]
  rw [h t ht]
  exact Nat.not_lt_zero _

/-- Without a graph nothing is placed. -/
theorem buildMemoryAccessPlan_emptyGraph (py : Builtins) (h : ∀ tier ∈ tiers, tier.reserveBytes = 0) :
    ∃ plan, buildMemoryAccessPlan py emptyGraph (hierarchyOf tiers) 1 .empty true = .ok plan ∧
      plan.placements = [] := by
  have hlocate : locate py emptyGraph (hierarchyOf tiers) 1 .empty = .ok ([], fun _ => 0) :=
    locate_eq_ok.mpr ⟨one_pos, validateTiers_hierarchyOf h, rfl, [], _, [], rfl, rfl, rfl⟩
  let contents := planContents (hierarchyOf tiers) [] fun _ => 0
  exact ⟨⟨contents, py.digestSha256 contents⟩,
    buildMemoryAccessPlan_eq_ok.mpr ⟨[], _, hlocate, Or.inl rfl, rfl, rfl⟩, rfl⟩

/-- Without weights the bandwidth stays that of the external memory. -/
theorem applyMemoryPlan_of_nil {plan : MemoryAccessPlan} (e : MacEngine)
    (h : plan.placements = []) : e.applyMemoryPlan tiers plan = .ok e := by
  have hfastest : fastestAllocatedTier plan .weight = none := by
    rw [fastestAllocatedTier, h]
    have hnone : plan.hierarchy.tiers.find? (fun _ => false) = none :=
      List.find?_eq_none.mpr fun _ _ => Bool.false_ne_true
    exact congrArg (Option.map _) hnone
  unfold MacEngine.applyMemoryPlan
  dsimp only
  rw [h, hfastest]
  rfl

/-- Without a graph the parameters are kept. -/
theorem planMemory_emptyGraph (e : MacEngine) (h : buildHierarchyFromConfig py c = .ok tiers) :
    e.planMemory py c emptyGraph = .ok e := by
  obtain ⟨plan, hplan, hnil⟩ :=
    buildMemoryAccessPlan_emptyGraph py (buildHierarchyFromConfig_reserve h)
  unfold MacEngine.planMemory
  rw [h, bind_eq_ok_left, hplan]
  exact applyMemoryPlan_of_nil e hnil

/-- What is planned without a graph is the hierarchy, and the parameters are kept. -/
theorem planMemory_emptyGraph_eq_ok {e e' : MacEngine}
    (h : e.planMemory py c emptyGraph = .ok e') : e' = e := by
  obtain ⟨tiers, htiers, -⟩ := bind_eq_ok.mp h
  rw [planMemory_emptyGraph e htiers] at h
  cases h
  rfl

theorem init_emptyGraph_parsed {e : MacEngine} (h : MacEngine.init py c emptyGraph = .ok e) :
    MacEngine.Parsed c e := by
  obtain ⟨e', hparse, hplan⟩ := bind_eq_ok.mp h
  rw [planMemory_emptyGraph_eq_ok hplan]
  exact MacEngine.parseConfig_parsed hparse

/-! ### The parameters of an engine -/

/-- The parameters that an engine has of its own are those of the configuration. -/
def Engine.OwnParsed (c : HardwareConfig) : Engine → Prop
  | .tensorCore e => (e.descriptorOverheadCycles : ℤ) = c.dmaDescriptorOverheadCycles.getD 5
  | .wmma e => (e.fragmentSerializationCycles : ℤ) =
      c.wmmaFragmentSerializationCycles.elim 1600 truncate
  | .gmma e => e.pipelineScale = c.gmmaPipelineScale.getD 0.05
  | _ => True

/-- The parameters of an engine that is created without a graph. -/
structure Engine.Parsed (c : HardwareConfig) (e : Engine) : Prop where
  mac : MacEngine.Parsed c e.mac
  own : e.OwnParsed c
  engineType : e.engineType = c.mac.type.getD "block"

theorem map_eq_ok {ε α β : Type} {x : Except ε α} {f : α → β} {b : β} :
    x.map f = .ok b ↔ ∃ a, x = .ok a ∧ f a = b := by
  cases x with
  | error e =>
    constructor
    · intro h
      cases h
    · rintro ⟨a, h, -⟩
      cases h
  | ok a =>
    constructor
    · intro h
      cases h
      exact ⟨a, rfl, rfl⟩
    · rintro ⟨a', h, rfl⟩
      cases h
      rfl

theorem TensorCoreEngine.init_emptyGraph {e : TensorCoreEngine}
    (h : TensorCoreEngine.init py c emptyGraph = .ok e) :
    MacEngine.Parsed c e.toMacEngine ∧ (Engine.tensorCore e).OwnParsed c := by
  obtain ⟨mac, hparse, h⟩ := bind_eq_ok.mp h
  obtain ⟨overhead, hoverhead, h⟩ := bind_eq_ok.mp h
  obtain ⟨mac', hplan, h⟩ := bind_eq_ok.mp h
  cases h
  rw [planMemory_emptyGraph_eq_ok hplan]
  unfold parseDescriptorOverhead at hoverhead
  dsimp only at hoverhead
  split_ifs at hoverhead with hneg
  cases hoverhead
  exact ⟨MacEngine.parseConfig_parsed hparse, Int.toNat_of_nonneg (not_lt.mp hneg)⟩

theorem WmmaEngine.init_emptyGraph {e : WmmaEngine}
    (h : WmmaEngine.init py c emptyGraph = .ok e) :
    MacEngine.Parsed c e.toMacEngine ∧ (Engine.wmma e).OwnParsed c := by
  obtain ⟨mac, hparse, h⟩ := bind_eq_ok.mp h
  obtain ⟨ser, hser, h⟩ := bind_eq_ok.mp h
  obtain ⟨mac', hplan, h⟩ := bind_eq_ok.mp h
  cases h
  rw [planMemory_emptyGraph_eq_ok hplan]
  unfold parseFragmentSerialization at hser
  dsimp only at hser
  split_ifs at hser with hneg
  cases hser
  exact ⟨MacEngine.parseConfig_parsed hparse, Int.toNat_of_nonneg (not_lt.mp hneg)⟩

theorem GmmaEngine.init_emptyGraph {e : GmmaEngine}
    (h : GmmaEngine.init py c emptyGraph = .ok e) :
    MacEngine.Parsed c e.toMacEngine ∧ (Engine.gmma e).OwnParsed c := by
  obtain ⟨mac, hparse, h⟩ := bind_eq_ok.mp h
  obtain ⟨scale, hscale, h⟩ := bind_eq_ok.mp h
  obtain ⟨mac', hplan, h⟩ := bind_eq_ok.mp h
  cases h
  rw [planMemory_emptyGraph_eq_ok hplan]
  unfold parsePipelineScale at hscale
  dsimp only at hscale
  split_ifs at hscale with hrange
  cases hscale
  exact ⟨MacEngine.parseConfig_parsed hparse, rfl⟩

/-- An engine that is created without a graph has the parameters of its configuration. -/
theorem createEngine_parsed {e : Engine} (h : createEngine py c emptyGraph = .ok e) :
    e.Parsed c := by
  unfold createEngine createEngineByType at h
  split at h
  case h_1 htype | h_2 htype | h_3 htype | h_7 htype | h_8 htype =>
    obtain ⟨mac, hinit, rfl⟩ := map_eq_ok.mp h
    exact ⟨init_emptyGraph_parsed hinit, trivial, htype.symm⟩
  case h_4 htype =>
    obtain ⟨mac, hinit, rfl⟩ := map_eq_ok.mp h
    obtain ⟨hparsed, hown⟩ := TensorCoreEngine.init_emptyGraph hinit
    exact ⟨hparsed, hown, htype.symm⟩
  case h_5 htype =>
    obtain ⟨mac, hinit, rfl⟩ := map_eq_ok.mp h
    obtain ⟨hparsed, hown⟩ := WmmaEngine.init_emptyGraph hinit
    exact ⟨hparsed, hown, htype.symm⟩
  case h_6 htype =>
    obtain ⟨mac, hinit, rfl⟩ := map_eq_ok.mp h
    obtain ⟨hparsed, hown⟩ := GmmaEngine.init_emptyGraph hinit
    exact ⟨hparsed, hown, htype.symm⟩
  case h_9 =>
    cases h

/-! ### Engines that answer -/

namespace Engine

/-- The estimate of a product does not divide by zero. -/
def AnswersEstimate (e : Engine) (k n : ℕ) : Prop :=
  match e with
  | osSystolic e => e.LoadAnswers (k * n * e.wBits / 8)
  | block e => e.LoadAnswers (e.weightBytes k n)
  | tensorCore e => 256 ≤ e.height * e.width
  | wmma e => 0 < e.effBwWeight
  | gmma e => e.LoadAnswers (e.weightBytes k n)
  | systolic _ | inputStationary _ | fsa _ => True

/-- The estimate of a pair does not divide by zero. -/
def AnswersPair (e : Engine) (k n : ℕ) : Prop :=
  match e with
  | osSystolic e => e.LoadAnswers (2 * k * n * e.wBits / 8)
  | tensorCore e => 256 ≤ e.height * e.width
  | wmma e => 0 < e.effBwWeight
  | systolic _ | block _ | gmma _ | inputStationary _ | fsa _ => True

/-- The fields of the estimate of a product. -/
def fields (e : Engine) (m k n : ℕ) : ResultFields :=
  match e with
  | systolic e => e.fields m k n
  | osSystolic e => e.fields (e.loadCycles (k * n * e.wBits / 8)) m k n
  | block e => e.fields (e.loadCycles (e.weightBytes k n)) m k n
  | tensorCore e => e.fields 1 m k n
  | wmma e => e.fields 1 1 m k n
  | gmma e => e.fields (e.loadCycles (e.weightBytes k n)) m k n
  | inputStationary e => e.fields m k n
  | fsa e => e.fields m k n

/-- The fields of the estimate of a pair. -/
def pairFields (e : Engine) (m k n : ℕ) : ResultFields :=
  match e with
  | systolic e => e.pairFields m k n
  | osSystolic e => e.pairFields (e.loadCycles (2 * k * n * e.wBits / 8)) m k n
  | block e => e.pairFields m k n
  | tensorCore e => e.fields 2 m k n
  | wmma e => e.fields 2 2 m k n
  | gmma e => e.pairFields m k n
  | inputStationary e => e.pairFields m k n
  | fsa e => FsaEngine.pairFields (e.fields m k n)

variable {e : Engine} {m k n : ℕ}

/-- The result of an estimate. -/
theorem estimate_returns (h : e.AnswersEstimate k n) (hm : 0 < m) (hk : 0 < k) (hn : 0 < n) :
    Returns (e.estimate m k n) (e.fields m k n) := by
  cases e with
  | systolic e => exact e.estimate_returns hm hk hn
  | osSystolic e => exact e.estimate_returns h hm hk hn
  | block e => exact e.estimate_returns h hm hk hn
  | tensorCore e => exact e.estimateWith_returns (e.numTcs_pos_iff.mpr h) one_pos hm hk hn
  | wmma e => exact e.estimateWith_returns h one_pos hm hk hn
  | gmma e => exact e.estimate_returns h hm hk hn
  | inputStationary e => exact e.estimate_returns hm hk hn
  | fsa e => exact e.estimate_returns hm hk hn

theorem pair_returns (h : e.AnswersPair k n) (hm : 0 < m) (hk : 0 < k) (hn : 0 < n) :
    Returns (e.estimateWeightCachePair m k n) (e.pairFields m k n) := by
  cases e with
  | systolic e => exact e.pair_returns hm hk hn
  | osSystolic e => exact e.pair_returns h hm hk hn
  | block e => exact e.pair_returns hm hk hn
  | tensorCore e => exact e.estimateWith_returns (e.numTcs_pos_iff.mpr h) two_pos hm hk hn
  | wmma e => exact e.estimateWith_returns h two_pos hm hk hn
  | gmma e => exact e.pair_returns hm hk hn
  | inputStationary e => exact e.pair_returns hm hk hn
  | fsa e => exact e.pair_returns hm hk hn

theorem not_numTcs_pos {e : TensorCoreEngine} (h : ¬ 256 ≤ e.height * e.width) : e.numTcs = 0 :=
  Nat.eq_zero_of_not_pos fun hpos => h (e.numTcs_pos_iff.mp hpos)

theorem not_effBwWeight_pos {e : MacEngine} (h : ¬ 0 < e.effBwWeight) : e.effBwWeight = 0 :=
  le_antisymm (not_lt.mp h) e.effBwWeight_nonneg

/-- An estimate that does not answer divides by zero. -/
theorem estimate_of_not_answers (h : ¬ e.AnswersEstimate k n) :
    e.estimate m k n = .error .zeroDivisionError := by
  cases e with
  | systolic e | inputStationary e | fsa e => exact absurd trivial h
  | osSystolic e => exact e.estimate_of_not_answers h
  | block e => exact e.estimate_of_not_answers h
  | tensorCore e => exact e.estimateWith_of_zero (not_numTcs_pos h)
  | wmma e => exact e.estimateWith_of_zero (not_effBwWeight_pos h)
  | gmma e => exact e.estimate_of_not_answers h

theorem pair_of_not_answers (h : ¬ e.AnswersPair k n) :
    e.estimateWeightCachePair m k n = .error .zeroDivisionError := by
  cases e with
  | systolic e | block e | gmma e | inputStationary e | fsa e => exact absurd trivial h
  | osSystolic e => exact e.pair_of_not_answers h
  | tensorCore e => exact e.estimateWith_of_zero (not_numTcs_pos h)
  | wmma e => exact e.estimateWith_of_zero (not_effBwWeight_pos h)

/-- An estimate has a property exactly when it answers and its fields have the property. -/
theorem estimate_exists_iff (hm : 0 < m) (hk : 0 < k) (hn : 0 < n) {P : ResultFields → Prop} :
    (∃ result, e.estimate m k n = .ok result ∧ P result.toResultFields) ↔
      e.AnswersEstimate k n ∧ P (e.fields m k n) := by
  by_cases h : e.AnswersEstimate k n
  · rw [(estimate_returns h hm hk hn).exists_iff, and_iff_right h]
  · exact iff_of_false (not_exists_of_error (estimate_of_not_answers h)) fun hP => h hP.1

theorem pair_exists_iff (hm : 0 < m) (hk : 0 < k) (hn : 0 < n) {P : ResultFields → Prop} :
    (∃ result, e.estimateWeightCachePair m k n = .ok result ∧ P result.toResultFields) ↔
      e.AnswersPair k n ∧ P (e.pairFields m k n) := by
  by_cases h : e.AnswersPair k n
  · rw [(pair_returns h hm hk hn).exists_iff, and_iff_right h]
  · exact iff_of_false (not_exists_of_error (pair_of_not_answers h)) fun hP => h hP.1

end Engine

/-! ### Accepted configurations -/

namespace HardwareConfigV2

variable (v : HardwareConfigV2)

/-- The tiers of an accepted configuration, which has no memory on the die. -/
theorem exists_buildHierarchy (py : Builtins) :
    ∃ tiers, buildHierarchyFromConfig py v.toConfig = .ok tiers := by
  have hnone : ¬ (0 : ℚ) < v.toConfig.onChipMemory.capacityGb.elim 0 (↑) := lt_irrefl 0
  unfold buildHierarchyFromConfig
  dsimp only
  rw [if_neg hnone]
  exact ⟨_, rfl⟩

/-- An engine of a registered type is created exactly when the clock is at least a megahertz. -/
theorem exists_createEngine_iff (py : Builtins) (htype : v.type ∈ canonicalIds) :
    (∃ e, createEngine py v.toConfig emptyGraph = .ok e) ↔
      0 < MacEngine.frequencyOf v.toConfig := by
  constructor
  · rintro ⟨e, h⟩
    have hparsed := (createEngine_parsed h).mac
    rw [← hparsed.fMhz]
    exact hparsed.fMhz_pos
  · intro hpos
    obtain ⟨mac, hparse⟩ := MacEngine.exists_parseConfig_iff.mpr hpos
    obtain ⟨tiers, htiers⟩ := v.exists_buildHierarchy py
    have hplan := planMemory_emptyGraph mac htiers
    have hinit : MacEngine.init py v.toConfig emptyGraph = .ok mac := by
      rw [MacEngine.init, hparse, bind_eq_ok_left, hplan]
    have hoverhead : parseDescriptorOverhead v.toConfig = .ok 5 := rfl
    have hser : parseFragmentSerialization v.toConfig = .ok 1600 := rfl
    have hscale : ∃ scale, parsePipelineScale v.toConfig = .ok scale :=
      ⟨⟨0.05, by norm_num⟩, dif_pos (by norm_num [toConfig])⟩
    obtain ⟨scale, hscale⟩ := hscale
    have hcreate : createEngine py v.toConfig emptyGraph =
        createEngineByType py v.type v.toConfig emptyGraph := rfl
    rw [hcreate]
    simp only [canonicalIds, List.mem_cons, List.not_mem_nil, or_false] at htype
    rcases htype with h | h | h | h | h | h | h | h <;> rw [h]
    case inr.inr.inr.inl =>
      simp only [createEngineByType, TensorCoreEngine.init, hparse, hoverhead, hplan,
        bind_eq_ok_left]
      exact ⟨_, rfl⟩
    case inr.inr.inr.inr.inl =>
      simp only [createEngineByType, WmmaEngine.init, hparse, hser, hplan, bind_eq_ok_left]
      exact ⟨_, rfl⟩
    case inr.inr.inr.inr.inr.inl =>
      simp only [createEngineByType, GmmaEngine.init, hparse, hscale, hplan, bind_eq_ok_left]
      exact ⟨_, rfl⟩
    all_goals
      simp only [createEngineByType, hinit]
      exact ⟨_, rfl⟩

/-- The efficiency of the external memory. -/
def efficiency : ℚ := UnitRat.orDefault v.dramEfficiency 0.90

/-- The bits of a weight. -/
def weightBits : ℕ := orDefault v.weightPrecisionBits 4

/-- The bytes of the buffer for weights, which is six tenths of the second level. -/
def weightBufferBytes : ℕ :=
  (v.sram.map fun sram => orDefault sram.l2SharedKb 2048).getD 2048 * 6 / 10 * 1024

/-- Weights fit in their buffer, or the external memory has bandwidth. -/
def LoadAnswers (bytes : ℕ) : Prop :=
  0 < bytes ∧ bytes ≤ v.weightBufferBytes ∨ 0 < v.efficiency

/-- The engine of a configuration divides by nothing that is zero. -/
@[mk_iff]
structure Answers (k n : ℕ) : Prop where
  frequency : 0 < MacEngine.frequencyOf v.toConfig
  tensorCore : v.type = "tensor_core" → 256 ≤ (v.arrayHeight * v.arrayWidth : ℕ)
  wmma : v.type = "wmma" → 0 < v.efficiency
  block : v.type = "block" → v.LoadAnswers (k * n * v.weightBits / 8)
  gmma : v.type = "gmma" → v.LoadAnswers (k * n * v.weightBits / 8)
  osSystolic : v.type = "os_systolic" →
    v.LoadAnswers (k * n * v.weightBits / 8) ∧ v.LoadAnswers (2 * k * n * v.weightBits / 8)

variable {v}

theorem effBwWeight_pos_iff {e : MacEngine} (h : MacEngine.Parsed v.toConfig e) :
    0 < e.effBwWeight ↔ 0 < v.efficiency := by
  have heff : e.dramEfficiency = v.efficiency := h.dramEfficiency
  rw [h.effBwWeight, MacEngine.externalBw, mul_pos_iff_of_pos_right e.bwMultiplier_pos,
    mul_pos_iff_of_pos_left e.bwRaw_pos, heff]

theorem loadAnswers_iff {e : MacEngine} (h : MacEngine.Parsed v.toConfig e) (bytes : ℕ) :
    e.LoadAnswers bytes ↔ v.LoadAnswers bytes := by
  have hbuf : e.wbufKb * 1024 = v.weightBufferBytes := by
    rw [h.wbufKb, h.l2SramKb]
    rfl
  rw [MacEngine.LoadAnswers, LoadAnswers, MacEngine.Cached, hbuf, effBwWeight_pos_iff h]

/-- The engine answers exactly when it divides by nothing that is zero. -/
theorem answersBoth_iff {e : Engine} (h : e.Parsed v.toConfig) (k n : ℕ) :
    e.AnswersEstimate k n ∧ e.AnswersPair k n ↔ v.Answers k n := by
  have hfreq : 0 < MacEngine.frequencyOf v.toConfig := by
    rw [← h.mac.fMhz]
    exact h.mac.fMhz_pos
  have htype : v.type = e.engineType := h.engineType.symm
  have hbits : v.weightBits = e.mac.wBits := h.mac.wBits.symm
  have hheight : (v.arrayHeight : ℕ) = e.mac.height := h.mac.height.symm
  have hwidth : (v.arrayWidth : ℕ) = e.mac.width := h.mac.width.symm
  have hbw := effBwWeight_pos_iff h.mac
  have hload := loadAnswers_iff h.mac
  rw [answers_iff, hbits, hheight, hwidth, ← hbw, ← hload, ← hload, htype]
  cases e with
  | systolic e | inputStationary e | fsa e =>
    simp [Engine.AnswersEstimate, Engine.AnswersPair, Engine.engineType, hfreq]
  | osSystolic e | block e | tensorCore e | wmma e | gmma e =>
    simp [Engine.AnswersEstimate, Engine.AnswersPair, Engine.engineType, Engine.mac,
      BlockEngine.weightBytes, GmmaEngine.weightBytes, hfreq]

/-- What is created from an accepted configuration and answers divides by nothing that is
zero. -/
theorem answers_of_creates {py : Builtins} {m k n : ℕ} (hm : 0 < m) (hk : 0 < k) (hn : 0 < n)
    (h : ∃ e, createEngine py v.toConfig emptyGraph = .ok e ∧
      (∃ r, e.estimate m k n = .ok r) ∧ ∃ r, e.estimateWeightCachePair m k n = .ok r) :
    v.Answers k n := by
  obtain ⟨e, hcreate, ⟨r, hr⟩, ⟨r', hr'⟩⟩ := h
  have hestimate := (Engine.estimate_exists_iff hm hk hn (P := fun _ => True)).mp ⟨r, hr, trivial⟩
  have hpair := (Engine.pair_exists_iff hm hk hn (P := fun _ => True)).mp ⟨r', hr', trivial⟩
  exact (answersBoth_iff (createEngine_parsed hcreate) k n).mp ⟨hestimate.1, hpair.1⟩

/-- A square array of a type, whose sides are one more than a number, at the default clock. -/
def squareArray (type : String) (side : ℕ) : HardwareConfigV2 where
  type := type
  arrayHeight := Nat.succPNat side
  arrayWidth := Nat.succPNat side

theorem squareArray_frequency (type : String) (side : ℕ) :
    0 < MacEngine.frequencyOf (squareArray type side).toConfig := by
  have hfreq : MacEngine.frequencyOf (squareArray type side).toConfig = 1000 := rfl
  rw [hfreq]
  exact Nat.succ_pos _

/-- The parameters of a square array. -/
theorem squareArray_parameters {type : String} {side : ℕ} {e : MacEngine}
    (h : MacEngine.Parsed (squareArray type side).toConfig e) :
    e.height = side + 1 ∧ e.width = side + 1 ∧ e.wBits = 4 ∧ e.aBits = 8 ∧ e.opsPerMac = 2 ∧
      e.bwRaw = 51.2 ∧ e.effBwWeight = 46.08 ∧ e.wbufKb = 1228 := by
  have hfMhz : e.fMhz = 1000 := h.fMhz
  have hbwRaw : e.bwRaw = 51.2 := by
    have hbw : e.bwRaw = 51.2 * 1000 / e.fMhz := h.bwRaw
    rw [hbw, hfMhz]
    norm_num
  have hbw : e.effBwWeight = 46.08 := by
    have heff : e.dramEfficiency = 0.90 := h.dramEfficiency
    have hmultiplier : e.bwMultiplier = 1 := h.bwMultiplier
    rw [h.effBwWeight, MacEngine.externalBw, hbwRaw, heff, hmultiplier]
    norm_num
  have hbuf : e.wbufKb = 1228 := by
    have hl2 : e.l2SramKb = 2048 := h.l2SramKb
    rw [h.wbufKb, hl2]
  exact ⟨h.height, h.width, h.wBits, h.aBits, h.opsPerMac, hbwRaw, hbw, hbuf⟩

/-- A square array of a registered type is created. -/
theorem exists_squareArray (type : String) (side : ℕ) (htype : type ∈ canonicalIds) :
    ∃ e, createEngine sampleBuiltins (squareArray type side).toConfig emptyGraph = .ok e ∧
      e.Parsed (squareArray type side).toConfig ∧ e.engineType = type := by
  obtain ⟨e, he⟩ := ((squareArray type side).exists_createEngine_iff sampleBuiltins htype).mpr
    (squareArray_frequency type side)
  have hparsed := createEngine_parsed he
  exact ⟨e, he, hparsed, hparsed.engineType⟩

end HardwareConfigV2

end Engines

end NpuArc
