import NpuArc.Memory.Footprint

/-!
# Room for tensors of known shape

A tensor without a declared size takes the bytes of its elements, rounded up to the alignment.
The bits of the elements are turned into bytes by rounding down, so elements smaller than a byte
may lose their last byte. The alignment makes up for it unless the bytes that are left fill their
blocks.
-/

namespace NpuArc

namespace Residency

variable {py : Builtins} {graph : WorkloadGraph} {hierarchy : MemoryHierarchy}
  {residentModels : ℤ} {queueBuffers : Dict String ℤ} {allowSpill : Bool}
  {plan : MemoryAccessPlan}

theorem le_alignUp (value : ℕ) {alignment : ℕ} (halign : 0 < alignment) :
    value ≤ alignUp value alignment := by
  have hdiv := Nat.div_add_mod (value + alignment - 1) alignment
  have hmod := Nat.mod_lt (value + alignment - 1) halign
  rw [Nat.mul_comm] at hdiv
  unfold alignUp
  omega

theorem alignUp_eq_self_iff {value alignment : ℕ} (halign : 0 < alignment) :
    alignUp value alignment = value ↔ alignment ∣ value := by
  constructor
  · intro h
    exact ⟨(value + alignment - 1) / alignment, h.symm.trans (Nat.mul_comm _ _)⟩
  · rintro ⟨blocks, rfl⟩
    have hdiv : (alignment * blocks + alignment - 1) / alignment = blocks := by
      rw [Nat.add_sub_assoc halign, Nat.mul_add_div halign,
        Nat.div_eq_of_lt (Nat.sub_lt halign Nat.one_pos), Nat.add_zero]
    rw [alignUp, hdiv, Nat.mul_comm]

/-- Bits rounded down to bytes and up to the alignment have room, unless some are left over and
the bytes fill their blocks. -/
theorem bits_le_alignUp_iff (bits : ℕ) {alignment : ℕ} (halign : 0 < alignment) :
    bits ≤ 8 * alignUp (bits / 8) alignment ↔ bits % 8 = 0 ∨ ¬alignment ∣ bits / 8 := by
  have hle := le_alignUp (bits / 8) halign
  rw [← alignUp_eq_self_iff halign]
  omega

/-- What a plan records of a tensor. -/
theorem exists_placement
    (hplan : buildMemoryAccessPlan py graph hierarchy residentModels queueBuffers allowSpill =
      .ok plan) {tensor : TensorSpec} (htensor : tensor ∈ graph.tensors) :
    ∃ p ∈ plan.placements, p.tensorId = tensor.tensorId ∧
      p.category = classifyTensor py graph tensor ∧
      p.alignedBytes = alignUp (tensorFootprintBytes tensor) hierarchy.defaultAlignmentBytes := by
  obtain ⟨ls, allocations, hlocate, -, hcontents, -⟩ := buildMemoryAccessPlan_eq_ok.mp hplan
  obtain ⟨-, -, -, tensors, a, buffers, htensors, -, rfl⟩ := locate_eq_ok.mp hlocate
  have hrecords := placeAll_map
    (f := fun l => (l.placement.tensorId, l.placement.category, l.placement.alignedBytes))
    (g := fun item => (item.1.tensorId, item.2,
      alignUp (tensorFootprintBytes item.1) hierarchy.defaultAlignmentBytes))
    (fun _ _ _ _ h => by
      obtain ⟨-, rfl, -⟩ := placementForTensor_eq_ok.mp h
      rfl) htensors
  have hitem : (tensor, classifyTensor py graph tensor) ∈ sortedTensors py graph := by
    unfold sortedTensors
    exact (List.mem_insertionSort _).mpr
      (List.mem_map_of_mem (f := fun t => (t, classifyTensor py graph t)) htensor)
  have hmem := List.mem_map_of_mem (f := fun item : TensorSpec × Category =>
    (item.1.tensorId, item.2,
      alignUp (tensorFootprintBytes item.1) hierarchy.defaultAlignmentBytes)) hitem
  rw [← hrecords] at hmem
  obtain ⟨l, hl, hrecord⟩ := List.mem_map.mp hmem
  have hplacements : plan.placements = sortedPlacements (tensors ++ buffers) :=
    congrArg (·.placements) hcontents
  have hp : l.placement ∈ plan.placements := by
    rw [hplacements, (sortedPlacements_perm _).mem_iff]
    exact List.mem_map_of_mem (List.mem_append_left _ hl)
  exact ⟨l.placement, hp, congrArg Prod.fst hrecord, congrArg (·.2.1) hrecord,
    congrArg (·.2.2) hrecord⟩

/-- The bytes that a plan reserves for a tensor of known shape have room for its elements exactly
when the elements are whole bytes, or the bytes rounded down do not fill their blocks. -/
theorem plan_reserves_elements_iff
    (hplan : buildMemoryAccessPlan py graph hierarchy residentModels queueBuffers allowSpill =
      .ok plan) {tensor : TensorSpec} (htensor : tensor ∈ graph.tensors) (hunset : tensor.bytes = 0)
    {n : ℕ} (hshape : elements tensor.shape = some n) :
    ∃ p ∈ plan.placements, p.tensorId = tensor.tensorId ∧
      p.category = classifyTensor py graph tensor ∧
      (n * precisionBits tensor.precision ≤ 8 * p.alignedBytes ↔
        n * precisionBits tensor.precision % 8 = 0 ∨
          ¬hierarchy.defaultAlignmentBytes ∣ n * precisionBits tensor.precision / 8) := by
  obtain ⟨p, hp, hid, hcategory, haligned⟩ := exists_placement hplan htensor
  have hfootprint : tensorFootprintBytes tensor = n * precisionBits tensor.precision / 8 := by
    rw [tensorFootprintBytes, if_neg (by omega), hshape]
  refine ⟨p, hp, hid, hcategory, ?_⟩
  rw [haligned, hfootprint]
  exact bits_le_alignUp_iff _ hierarchy.alignment_pos

/-- A graph with a tensor of a single element of four bits. -/
def nibbleGraph : WorkloadGraph :=
  { inputGraph with
    tensors := [{ tensorId := "gate", shape := [.fixed 1], precision := .int4 }]
    tensorIds_nodup := by decide
    producer_mem := by decide
    alias_mem := by decide }

/-- The plan of the tensor of four bits. -/
def nibblePlan : Except Error MemoryAccessPlan :=
  buildMemoryAccessPlan sampleBuiltins nibbleGraph sampleHierarchy 1 .empty true

/-- No byte is reserved for a single element of four bits. -/
theorem nibbleGraph_lost : ∃ tensor ∈ nibbleGraph.tensors,
    tensor.bytes = 0 ∧ elements tensor.shape = some 1 ∧
    ∃ plan, nibblePlan = .ok plan ∧ ∃ p ∈ plan.placements,
      p.tensorId = tensor.tensorId ∧ ¬1 * precisionBits tensor.precision ≤ 8 * p.alignedBytes := by
  have htest : (nibblePlan.toOption.any fun plan => plan.placements.any fun p =>
      decide (p.tensorId = "gate" ∧ ¬1 * precisionBits .int4 ≤ 8 * p.alignedBytes)) = true := by
    decide +kernel
  obtain ⟨plan, hplan, htest⟩ := (Option.any_eq_true _ _).mp htest
  obtain ⟨p, hp, htest⟩ := List.any_eq_true.mp htest
  exact ⟨_, List.mem_cons_self, rfl, rfl, plan, toOption_eq_some.mp hplan, p, hp,
    of_decide_eq_true htest⟩

theorem plan_reserves_elements_sample : ∃ plan, nibblePlan = .ok plan ∧ ∃ p ∈ plan.placements,
    p.tensorId = "gate" ∧ p.category = classifyTensor sampleBuiltins nibbleGraph
      { tensorId := "gate", shape := [.fixed 1], precision := .int4 } ∧
    (1 * precisionBits .int4 ≤ 8 * p.alignedBytes ↔
      1 * precisionBits .int4 % 8 = 0 ∨ ¬256 ∣ 1 * precisionBits .int4 / 8) := by
  have hsome : nibblePlan.toOption.isSome = true := by decide +kernel
  obtain ⟨plan, hplan⟩ := Option.isSome_iff_exists.mp hsome
  have hok : nibblePlan = .ok plan := toOption_eq_some.mp hplan
  exact ⟨plan, hok, plan_reserves_elements_iff hok List.mem_cons_self rfl rfl⟩

end Residency

end NpuArc
