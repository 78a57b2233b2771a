import NpuArc.Memory.Safety
import Mathlib.Algebra.BigOperators.Ring.Finset
import Mathlib.Tactic.LinearCombination
import Mathlib.Tactic.Ring

/-!
# The footprint oracle

The tests compare a plan with closed-form byte totals, which classify weights by a
predicate of their own: a tensor is a weight if the graph input produces it or its id
starts like a weight. The planner asks for the operator of the producer instead.
-/

namespace NpuArc

namespace Residency

variable {py : Builtins} {graph : WorkloadGraph} {hierarchy : MemoryHierarchy}
  {residentModels : ℤ} {queueBuffers : Dict String ℤ} {allowSpill : Bool}
  {plan : MemoryAccessPlan}

/-! ### The oracle -/

/-- The weight classification of the oracle. -/
def isOracleWeight (py : Builtins) (tensor : TensorSpec) : Bool :=
  tensor.producerNode = "input" ∨ startsWithAny ["weight", "param"] (py.lower tensor.tensorId)

/-- Sum of all tensor byte sizes after alignment and weight replication. -/
def totalAlignedTensorBytes (py : Builtins) (graph : WorkloadGraph) (alignment : ℕ)
    (residentModels : ℤ) : ℤ :=
  (graph.tensors.map fun tensor =>
    (alignUp tensor.bytes alignment : ℤ) *
      if isOracleWeight py tensor then residentModels else 1).sum

/-- Total bytes required by tensors and queue buffers after alignment. -/
def totalRequiredBytes (py : Builtins) (graph : WorkloadGraph) (alignment : ℕ)
    (residentModels : ℤ) (queueBuffers : Dict String ℤ) : ℤ :=
  totalAlignedTensorBytes py graph alignment residentModels +
    (queueBuffers.values.map fun size => (alignUp (max 0 size).toNat alignment : ℤ)).sum

/-! ### The planner's total -/

private theorem placementForTensor_effective {models : ℕ} (item : TensorSpec × Category)
    (a : TierBytes) (l : Located) (b : TierBytes)
    (h : placementForTensor hierarchy models item.1 item.2 a = .ok (l, b)) :
    l.placement.effectiveBytes = effectiveBytes hierarchy.defaultAlignmentBytes models item := by
  obtain ⟨_, rfl, _⟩ := placementForTensor_eq_ok.mp h
  rfl

private theorem placementForBuffer_effective (item : String × ℤ) (a : TierBytes) (l : Located)
    (b : TierBytes) (h : placementForBuffer hierarchy item.1 item.2 a = .ok (l, b)) :
    l.placement.effectiveBytes =
      alignUp (max 0 item.2).toNat hierarchy.defaultAlignmentBytes := by
  unfold placementForBuffer at h
  split_ifs at h with hneg
  cases h
  rw [max_eq_right (by omega)]
  exact Nat.mul_one _

/-- The effective bytes of a plan, tensor by tensor and buffer by buffer. -/
theorem totalEffective_of_plan
    (hplan : buildMemoryAccessPlan py graph hierarchy residentModels queueBuffers allowSpill =
      .ok plan) :
    totalEffective plan =
      (graph.tensors.map fun tensor => effectiveBytes hierarchy.defaultAlignmentBytes
        residentModels.toNat (tensor, classifyTensor py graph tensor)).sum +
      (queueBuffers.values.map fun size =>
        alignUp (max 0 size).toNat hierarchy.defaultAlignmentBytes).sum := by
  obtain ⟨ls, allocations, hlocate, _, hcontents, _⟩ := buildMemoryAccessPlan_eq_ok.mp hplan
  obtain ⟨_, _, _, tensors, a, buffers, htensors, hbuffers, rfl⟩ := locate_eq_ok.mp hlocate
  rw [totalEffective_eq hcontents, List.map_append, List.sum_append,
    placeAll_map placementForTensor_effective htensors,
    placeAll_map placementForBuffer_effective hbuffers]
  have hsorted : (sortedTensors py graph).Perm _ := List.perm_insertionSort _ _
  rw [(hsorted.map _).sum_eq, ((List.perm_insertionSort _ _).map _).sum_eq, List.map_map,
    Dict.values, List.map_map]
  rfl

/-! ### Agreement -/

/-- The aligned bytes of the tensors that pass a test. -/
def alignedBytes (graph : WorkloadGraph) (alignment : ℕ) (test : TensorSpec → Bool) : ℤ :=
  (graph.tensors.map fun tensor =>
    if test tensor then (alignUp tensor.bytes alignment : ℤ) else 0).sum

/-- A tensor that the planner takes for a weight and the oracle does not. -/
def isPlannerOnlyWeight (py : Builtins) (graph : WorkloadGraph) (tensor : TensorSpec) : Bool :=
  classifyTensor py graph tensor = .weight ∧ ¬isOracleWeight py tensor

/-- A tensor that the oracle takes for a weight and the planner does not. -/
def isOracleOnlyWeight (py : Builtins) (graph : WorkloadGraph) (tensor : TensorSpec) : Bool :=
  isOracleWeight py tensor ∧ classifyTensor py graph tensor ≠ .weight

/-- How replicating by the two predicates differs for one tensor. -/
private theorem replication_difference_one (py : Builtins) (graph : WorkloadGraph)
    (size models : ℤ) (tensor : TensorSpec) :
    size * (if classifyTensor py graph tensor = .weight then models else 1) -
      size * (if isOracleWeight py tensor then models else 1) =
    (models - 1) * ((if isPlannerOnlyWeight py graph tensor then size else 0) -
      if isOracleOnlyWeight py graph tensor then size else 0) := by
  unfold isPlannerOnlyWeight isOracleOnlyWeight
  by_cases hplanner : classifyTensor py graph tensor = .weight
  · by_cases horacle : isOracleWeight py tensor = true
    · simp [hplanner, horacle]
    · simp only [hplanner, horacle, if_true, Bool.false_eq_true, not_false_eq_true, and_self,
        decide_true, if_false, false_and, decide_false]
      ring
  · by_cases horacle : isOracleWeight py tensor = true
    · simp only [hplanner, horacle, if_true, if_false, false_and, decide_false,
        Bool.false_eq_true, ne_eq, not_false_eq_true, and_self, decide_true]
      ring
    · simp [hplanner, horacle]

private theorem replication_difference (py : Builtins) (graph : WorkloadGraph)
    (size : TensorSpec → ℤ) (models : ℤ) (tensors : List TensorSpec) :
    (tensors.map fun tensor =>
      size tensor * if classifyTensor py graph tensor = .weight then models else 1).sum -
    (tensors.map fun tensor =>
      size tensor * if isOracleWeight py tensor then models else 1).sum =
    (models - 1) *
      ((tensors.map fun tensor =>
          if isPlannerOnlyWeight py graph tensor then size tensor else 0).sum -
        (tensors.map fun tensor =>
          if isOracleOnlyWeight py graph tensor then size tensor else 0).sum) := by
  induction tensors with
  | nil => simp
  | cons tensor tensors ih =>
    have hone := replication_difference_one py graph (size tensor) models tensor
    simp only [List.map_cons, List.sum_cons]
    linear_combination ih + hone

/-- The effective bytes of a plan over tensors of declared sizes, with the planner's
replication. -/
private theorem totalEffective_cast
    (hplan : buildMemoryAccessPlan py graph hierarchy residentModels queueBuffers allowSpill =
      .ok plan)
    (hbytes : ∀ tensor ∈ graph.tensors, 0 < tensor.bytes) :
    (totalEffective plan : ℤ) =
      (graph.tensors.map fun tensor =>
        (alignUp tensor.bytes hierarchy.defaultAlignmentBytes : ℤ) *
          if classifyTensor py graph tensor = .weight then residentModels else 1).sum +
      (queueBuffers.values.map fun size =>
        (alignUp (max 0 size).toNat hierarchy.defaultAlignmentBytes : ℤ)).sum := by
  obtain ⟨ls, allocations, hlocate, _⟩ := buildMemoryAccessPlan_eq_ok.mp hplan
  have hmodels : 0 < residentModels := (locate_eq_ok.mp hlocate).1
  rw [totalEffective_of_plan hplan, Nat.cast_add, Nat.cast_list_sum, Nat.cast_list_sum,
    List.map_map, List.map_map]
  congr 2
  apply List.map_congr_left
  intro tensor hmem
  simp only [Function.comp_apply, effectiveBytes, tensorFootprintBytes, if_pos (hbytes tensor hmem)]
  push_cast
  rw [Int.toNat_of_nonneg (by omega)]

/-- The effective bytes of a plan are the oracle's total exactly when weights are not
replicated, or the tensors that only the planner takes for weights weigh as much as those
that only the oracle does. -/
theorem footprint_eq_oracle_iff
    (hplan : buildMemoryAccessPlan py graph hierarchy residentModels queueBuffers allowSpill =
      .ok plan)
    (hbytes : ∀ tensor ∈ graph.tensors, 0 < tensor.bytes) :
    (totalEffective plan : ℤ) = totalRequiredBytes py graph hierarchy.defaultAlignmentBytes
        residentModels queueBuffers ↔
      residentModels = 1 ∨
      alignedBytes graph hierarchy.defaultAlignmentBytes (isPlannerOnlyWeight py graph) =
        alignedBytes graph hierarchy.defaultAlignmentBytes (isOracleOnlyWeight py graph) := by
  have hdifference := replication_difference py graph
    (fun tensor => (alignUp tensor.bytes hierarchy.defaultAlignmentBytes : ℤ)) residentModels
    graph.tensors
  rw [totalEffective_cast hplan hbytes]
  unfold totalRequiredBytes totalAlignedTensorBytes
  rw [add_left_inj, ← sub_eq_zero, hdifference, mul_eq_zero, sub_eq_zero, sub_eq_zero]
  rfl

/-- A graph input without a weight's id. -/
def inputGraph : WorkloadGraph where
  tensors := [{ tensorId := "image", shape := [.fixed 256], bytes := 256, producerNode := "input" }]
  nodeIds_nodup := by decide
  tensorIds_nodup := by decide
  producer_mem := by decide
  alias_mem := by decide

/-- The plan of the graph input with two resident models. -/
def inputPlan : Except Error MemoryAccessPlan :=
  buildMemoryAccessPlan sampleBuiltins inputGraph sampleHierarchy 2 .empty true

/-- The planner counts the graph input once, the oracle for each resident model. -/
theorem inputGraph_differs :
    (∀ tensor ∈ inputGraph.tensors, 0 < tensor.bytes) ∧
    ∃ plan, inputPlan = .ok plan ∧
      (totalEffective plan : ℤ) ≠ totalRequiredBytes sampleBuiltins inputGraph 256 2 .empty := by
  have htest : (inputPlan.toOption.any fun plan =>
      decide ((totalEffective plan : ℤ) ≠
        totalRequiredBytes sampleBuiltins inputGraph 256 2 .empty)) = true := by
    decide +kernel
  obtain ⟨plan, hplan, htest⟩ := (Option.any_eq_true _ _).mp htest
  exact ⟨by decide, plan, toOption_eq_some.mp hplan, of_decide_eq_true htest⟩

theorem footprint_eq_oracle_iff_sample :
    ∃ plan, samplePlan = .ok plan ∧
      (totalEffective plan : ℤ) = totalRequiredBytes sampleBuiltins sampleGraph 256 1 .empty := by
  have hsome : samplePlan.toOption.isSome = true := by decide +kernel
  obtain ⟨plan, hplan⟩ := Option.isSome_iff_exists.mp hsome
  have hok : samplePlan = .ok plan := toOption_eq_some.mp hplan
  exact ⟨plan, hok, (footprint_eq_oracle_iff hok (by decide)).mpr (Or.inl rfl)⟩

end Residency

end NpuArc
