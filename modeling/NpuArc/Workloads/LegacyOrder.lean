import NpuArc.Library.Decimal
import NpuArc.Workloads.Legacy
import NpuArc.Workloads.Pipeline

/-!
# The order of lowered traces

Both lowerings give a pipeline of the entries of their trace, so the topological order is the
order of the trace. The lowering of a dictionary trace uses two defaults for a missing name.
So the dependency on an entry names a node exactly when the entry has a name.
-/

namespace NpuArc

namespace Workloads

variable {F : Type}

/-! ### Names -/

theorem outId_inj {i j : ℕ} (h : "t_out_" ++ toString i = "t_out_" ++ toString j) : i = j :=
  toString_injective ((String.append_right_inj _).mp h)

theorem weightId_inj {i j : ℕ} (h : "t_weight_" ++ toString i = "t_weight_" ++ toString j) :
    i = j :=
  toString_injective ((String.append_right_inj _).mp h)

theorem weightId_ne_outId (i j : ℕ) : "t_weight_" ++ toString i ≠ "t_out_" ++ toString j := by
  intro h
  simpa [String.toList_append] using congrArg String.toList h

theorem actId_ne_outId (i j : ℕ) : "t_act_" ++ toString i ≠ "t_out_" ++ toString j := by
  intro h
  simpa [String.toList_append] using congrArg String.toList h

theorem actId_ne_weightId (i j : ℕ) : "t_act_" ++ toString i ≠ "t_weight_" ++ toString j := by
  intro h
  simpa [String.toList_append] using congrArg String.toList h

theorem inputId_ne_outId (j : ℕ) : "t_input" ≠ "t_out_" ++ toString j := by
  intro h
  simpa [String.toList_append] using congrArg String.toList h

theorem inputId_ne_weightId (j : ℕ) : "t_input" ≠ "t_weight_" ++ toString j := by
  intro h
  simpa [String.toList_append] using congrArg String.toList h

theorem isBlank_append {s t : String} (h : isBlank s = false) : isBlank (s ++ t) = false := by
  rw [isBlank, List.all_eq_false] at h ⊢
  obtain ⟨c, hc, hspace⟩ := h
  exact ⟨c, by simp [hc], hspace⟩

theorem nodeName_ne (s : String) (idx : ℕ) :
    "n_" ++ s ++ "_" ++ toString idx ≠ "" ∧ "n_" ++ s ++ "_" ++ toString idx ≠ "input" := by
  constructor
  · intro h
    simpa [String.toList_append] using congrArg String.toList h
  · intro h
    simpa [String.toList_append] using congrArg String.toList h

/-! ### Constructed records -/

theorem pure_eq_ok {ε α : Type} (a : α) : (pure a : Except ε α) = .ok a := rfl

/-- A tensor with a name and positive dimensions, of a size that is not computed yet. -/
theorem TensorSpec.validate_of_fixed {t : TensorSpec} (hid : isBlank t.tensorId = false)
    (hshape : ∀ d ∈ t.shape, ∃ size, d = .fixed size ∧ 0 < size) (hbytes : t.bytes = 0) :
    t.validate = .ok t := by
  refine TensorSpec.validate_eq_ok.mpr ⟨rfl, hid, fun d hd => ?_, by omega⟩
  obtain ⟨size, rfl, hsize⟩ := hshape d hd
  rw [validateShapeElement, if_neg (by omega)]

/-! ### Reached stages -/

theorem map_unconsumed_addConsumer (a b : String) (tensors : List TensorSpec) :
    (addConsumer a b tensors).map (·.unconsumed) = tensors.map (·.unconsumed) := by
  rw [addConsumer, List.map_map]
  refine List.map_congr_left fun t _ => ?_
  dsimp only [Function.comp]
  split_ifs with h
  · rfl
  · rfl

theorem consumedBy_addConsumer {a b id : String} {tensors : List TensorSpec} {t : TensorSpec}
    (ht : t ∈ addConsumer a b tensors) (hid : id ∈ t.consumedBy) :
    id = b ∨ ∃ t' ∈ tensors, id ∈ t'.consumedBy := by
  obtain ⟨t', ht', rfl⟩ := List.mem_map.mp ht
  split_ifs at hid with h
  · rcases List.mem_append.mp hid with hid | hid
    · exact Or.inr ⟨t', ht', hid⟩
    · exact Or.inl (List.mem_singleton.mp hid)
  · exact Or.inr ⟨t', ht', hid⟩

/-- The nodes and tensors of the first stages of a pipeline. -/
structure Pipeline.Reached (p : Pipeline F) (n : ℕ) (s : Lowering F) : Prop where
  nodes : s.nodes = (List.range n).map p.node
  tensors : s.tensors.map (·.unconsumed) =
    ((List.range n).flatMap p.added).map (·.unconsumed)
  consumers : ∀ t ∈ s.tensors, ∀ id ∈ t.consumedBy, ∃ i < n, (p.node i).nodeId = id
  prevOutput : s.prevOutput = if n = 0 then none else some (p.out (n - 1)).tensorId

namespace Pipeline

variable {p : Pipeline F} {n : ℕ} {s s' : Lowering F}

theorem reached_zero : p.Reached 0 {} where
  nodes := rfl
  tensors := rfl
  consumers _ ht := absurd ht List.not_mem_nil
  prevOutput := rfl

/-- A step that adds a stage. -/
theorem Reached.next (h : p.Reached n s) (hnodes : s'.nodes = s.nodes ++ [p.node n])
    (htensors : s'.tensors.map (·.unconsumed) = (s.tensors ++ p.added n).map (·.unconsumed))
    (hconsumers : ∀ t ∈ s'.tensors, ∀ id ∈ t.consumedBy,
      id = (p.node n).nodeId ∨ ∃ t' ∈ s.tensors, id ∈ t'.consumedBy)
    (hprev : s'.prevOutput = some (p.out n).tensorId) : p.Reached (n + 1) s' where
  nodes := by
    rw [hnodes, h.nodes, List.range_succ, List.map_append, List.map_singleton]
  tensors := by
    rw [htensors, List.map_append, h.tensors, List.range_succ, List.flatMap_append,
      List.map_append, List.flatMap_singleton]
  consumers t ht id hid := by
    rcases hconsumers t ht id hid with rfl | ⟨t', ht', hid'⟩
    · exact ⟨n, by omega, rfl⟩
    · obtain ⟨i, hi, rfl⟩ := h.consumers t' ht' id hid'
      exact ⟨i, by omega, rfl⟩
  prevOutput := by rw [hprev, if_neg (by omega), Nat.add_sub_cancel]

theorem Reached.realizes (h : p.Reached n s) {g : WorkloadGraphV1 F} (hnodes : g.nodes = s.nodes)
    (htensors : g.tensors = s.tensors) : p.Realizes n g where
  nodes := by rw [hnodes, h.nodes]
  tensors := by rw [htensors, h.tensors]
  consumers t ht id hid := by
    rw [htensors] at ht
    obtain ⟨i, hi, rfl⟩ := h.consumers t ht id hid
    rw [WorkloadGraphV1.nodeIds, hnodes, h.nodes]
    exact List.mem_map_of_mem (List.mem_map_of_mem (List.mem_range.mpr hi))

end Pipeline

/-! ### Tuple traces -/

section Llm

variable (entries : List LlmEntry) (provenance : WorkloadProvenance)

/-- The entry at an index. -/
def llmEntry (idx : ℕ) : LlmEntry := entries.getD idx default

/-- The pipeline of a tuple trace. -/
def llmPipeline : Pipeline F where
  node i := llmNode entries provenance (llmEntry entries i) i
    (if i = 0 then "t_act_" ++ toString i else "t_out_" ++ toString (i - 1))
  fresh i := (if i = 0 then [llmActivation provenance (llmEntry entries 0) 0 "input"] else []) ++
    [llmWeight provenance (llmEntry entries i) i]
  out i := llmOutput provenance (llmEntry entries i) i

theorem mem_llm_fresh {i : ℕ} {t : TensorSpec}
    (h : t ∈ (llmPipeline (F := F) entries provenance).fresh i) :
    i = 0 ∧ t = llmActivation provenance (llmEntry entries 0) 0 "input" ∨
      t = llmWeight provenance (llmEntry entries i) i := by
  rcases List.mem_append.mp h with h | h
  · split_ifs at h with hi
    · exact Or.inl ⟨hi, List.mem_singleton.mp h⟩
    · cases h
  · exact Or.inr (List.mem_singleton.mp h)

theorem llm_linked : (llmPipeline (F := F) entries provenance).Linked where
  nodeId i j h := (numbered_inj h).2
  nodeId_ne i := nodeName_ne _ _
  outId i j h := outId_inj h
  freshId i j t ht t' ht' heq := by
    rcases mem_llm_fresh _ _ ht with ⟨rfl, rfl⟩ | rfl
    · rcases mem_llm_fresh _ _ ht' with ⟨rfl, -⟩ | rfl
      · rfl
      · exact absurd heq (actId_ne_weightId 0 j)
    · rcases mem_llm_fresh _ _ ht' with ⟨rfl, rfl⟩ | rfl
      · exact absurd heq.symm (actId_ne_weightId 0 i)
      · exact weightId_inj heq
  freshIds i := by
    by_cases hi : i = 0
    · subst hi
      simp [llmPipeline, llmActivation, llmWeight]
    · simp [llmPipeline, hi]
  freshId_ne i j t ht := by
    rcases mem_llm_fresh _ _ ht with ⟨-, rfl⟩ | rfl
    · exact actId_ne_outId 0 j
    · exact weightId_ne_outId i j
  shapes i t ht d hd := by
    have hfixed : ∀ a b : ℤ, d ∈ [Dim.fixed a, Dim.fixed b] → ∃ size, d = .fixed size := by
      intro a b h
      simp only [List.mem_cons, List.not_mem_nil, or_false] at h
      rcases h with rfl | rfl
      · exact ⟨_, rfl⟩
      · exact ⟨_, rfl⟩
    rcases List.mem_append.mp ht with ht | ht
    · rcases mem_llm_fresh _ _ ht with ⟨-, rfl⟩ | rfl
      · exact hfixed _ _ hd
      · exact hfixed _ _ hd
    · obtain rfl := List.mem_singleton.mp ht
      exact hfixed _ _ hd
  noAlias i t ht := by
    rcases List.mem_append.mp ht with ht | ht
    · rcases mem_llm_fresh _ _ ht with ⟨-, rfl⟩ | rfl
      · rfl
      · rfl
    · obtain rfl := List.mem_singleton.mp ht
      rfl
  freshProducer i t ht := by
    rcases mem_llm_fresh _ _ ht with ⟨-, rfl⟩ | rfl
    · rfl
    · rfl
  outProducer i := rfl
  outputs i := rfl
  inputs_zero := rfl
  inputs_succ i := rfl
  dependencies i dep hdep j heq := by
    subst heq
    by_cases hi : 0 < i
    · have hprev : llmNodeId (llmEntry entries j) j = llmPrevNodeId entries i := by
        simpa [llmPipeline, llmNode, hi] using hdep
      have hij := (numbered_inj hprev).2
      omega
    · have hnone : ((llmPipeline (F := F) entries provenance).node i).dependencies = [] :=
        if_neg hi
      rw [hnone] at hdep
      cases hdep

variable {entries}

/-- Lowering an entry with positive dimensions adds its stage. -/
theorem lowerLlmEntry_ok {k : ℕ} (hk : k < entries.length)
    (hpos : ∀ e ∈ entries, 0 < e.m ∧ 0 < e.k ∧ 0 < e.n) {s : Lowering F}
    (hs : (llmPipeline entries provenance).Reached k s) :
    ∃ s', lowerLlmEntry entries provenance s (entries[k], k) = .ok s' ∧
      (llmPipeline entries provenance).Reached (k + 1) s' := by
  have hentry : llmEntry entries k = entries[k] := by simp [llmEntry, hk]
  obtain ⟨hm, hk', hn⟩ := hpos entries[k] (List.getElem_mem hk)
  have hdims : ∀ a b : ℤ, 0 < a → 0 < b →
      ∀ d ∈ [Dim.fixed a, Dim.fixed b], ∃ size, d = .fixed size ∧ 0 < size := by
    intro a b ha hb d hd
    simp only [List.mem_cons, List.not_mem_nil, or_false] at hd
    rcases hd with rfl | rfl
    · exact ⟨a, rfl, ha⟩
    · exact ⟨b, rfl, hb⟩
  have hact : ∀ producer, (llmActivation provenance entries[k] k producer).validate =
      .ok (llmActivation provenance entries[k] k producer) := fun producer =>
    TensorSpec.validate_of_fixed (isBlank_append (by decide)) (hdims _ _ hm hk') rfl
  have hweight : (llmWeight provenance entries[k] k).validate =
      .ok (llmWeight provenance entries[k] k) :=
    TensorSpec.validate_of_fixed (isBlank_append (by decide)) (hdims _ _ hk' hn) rfl
  have hout : (llmOutput provenance entries[k] k).validate = .ok (llmOutput provenance entries[k] k) :=
    TensorSpec.validate_of_fixed (isBlank_append (by decide)) (hdims _ _ hm hn) rfl
  have hnode : ∀ actId, (llmNode (F := F) entries provenance entries[k] k actId).validate =
      .ok (llmNode entries provenance entries[k] k actId) := by
    intro actId
    refine NodeSpec.validate_eq_ok.mpr ⟨rfl, ?_, show isBlank "gemm" = false by decide⟩
    change isBlank ("n_" ++ _ ++ "_" ++ _) = false
    rw [String.append_assoc, String.append_assoc]
    exact isBlank_append (by decide)
  have hprev := hs.prevOutput
  by_cases hk0 : k = 0
  · subst hk0
    rw [if_pos rfl] at hprev
    simp only [lowerLlmEntry, hact, hweight, hout, hnode, bind_eq_ok_left, hprev]
    refine ⟨_, rfl, hs.next ?_ ?_ ?_ ?_⟩
    · simp [llmPipeline, hentry, llmActivation]
    · simp [llmPipeline, Pipeline.added, hentry]
    · intro t ht id hid
      simp only [List.mem_append, List.mem_cons, List.not_mem_nil, or_false] at ht
      rcases ht with ht | rfl | rfl | rfl
      · exact Or.inr ⟨t, ht, hid⟩
      · exact Or.inl (by simpa [llmPipeline, llmNode, hentry, llmActivation] using hid)
      · exact Or.inl (by simpa [llmPipeline, llmNode, hentry, llmWeight] using hid)
      · cases hid
    · simp [llmPipeline, hentry]
  · rw [if_neg hk0] at hprev
    have hpop : ∀ a b c : TensorSpec, (s.tensors ++ [a, b, c]).eraseIdx
        ((s.tensors ++ [a, b, c]).length - 3) = s.tensors ++ [b, c] := by
      intro a b c
      rw [List.length_append, List.length_cons, List.length_cons, List.length_singleton,
        Nat.add_sub_cancel, List.eraseIdx_append_of_length_le (Nat.le_refl _), Nat.sub_self]
      rfl
    simp only [lowerLlmEntry, hact, hweight, hout, hnode, bind_eq_ok_left, hprev, hpop]
    refine ⟨_, rfl, hs.next ?_ ?_ ?_ ?_⟩
    · simp [llmPipeline, hentry, hk0, llmOutput]
    · rw [map_unconsumed_addConsumer]
      simp [llmPipeline, Pipeline.added, hentry, hk0]
    · intro t ht id hid
      rcases consumedBy_addConsumer ht hid with rfl | ⟨t', ht', hid'⟩
      · exact Or.inl (by simp [llmPipeline, llmNode, hentry])
      · simp only [List.mem_append, List.mem_cons, List.not_mem_nil, or_false] at ht'
        rcases ht' with ht' | rfl | rfl
        · exact Or.inr ⟨t', ht', hid'⟩
        · exact Or.inl (by simpa [llmPipeline, llmNode, hentry, llmWeight] using hid')
        · cases hid'
    · simp [llmPipeline, hentry]

/-- The names of the entries with their indices, as a list over the range of indices. -/
theorem map_range_eq_zipIdx {α β : Type} [Inhabited α] (f : α → ℕ → β) (l : List α) :
    (List.range l.length).map (fun i => f (l.getD i default) i) =
      l.zipIdx.map fun e => f e.1 e.2 := by
  refine List.ext_getElem (by simp) fun i hi hi' => ?_
  have hil : i < l.length := by simpa using hi
  simp [hil]

/-- The lowered graph of a tuple trace with positive dimensions is accepted, and its topological
order is the order of the trace. -/
def LlmInOrder (F : Type) (so : SetOrder) (trace : List LlmEntry) (graphName : String)
    (batchM : Option ℤ) (bindings : Option DimensionBindings) : Prop :=
  (∀ e ∈ trace, 0 < e.m ∧ 0 < e.k ∧ 0 < e.n) →
    ∀ b, applyLegacyBatchM batchM (bindings.getD .unbound) = .ok b →
      ∃ g : WorkloadGraphV1 F,
        lowerLlmTupleTrace so trace graphName batchM bindings = .ok (g, b) ∧
        g.validateAll so b .default = .ok () ∧
        g.topologicalOrder so = .ok (trace.zipIdx.map fun e => llmNodeId e.1 e.2)

theorem llmInOrder (so : SetOrder) (entries : List LlmEntry) (graphName : String)
    (batchM : Option ℤ) (bindings : Option DimensionBindings) :
    LlmInOrder F so entries graphName batchM bindings := by
  intro hpos b hb
  let provenance : WorkloadProvenance := { source := "legacy:llm:" ++ graphName }
  obtain ⟨s, hs, hreached⟩ := foldlM_zipIdx_ok (f := lowerLlmEntry (F := F) entries provenance)
    (P := (llmPipeline entries provenance).Reached) entries Pipeline.reached_zero
    fun k hk s hs => lowerLlmEntry_ok provenance hk hpos hs
  have hlinked := llm_linked (F := F) entries provenance
  let g : WorkloadGraphV1 F :=
    { graphName, nodes := s.nodes, tensors := s.tensors, provenance := some provenance }
  have hrealizes : (llmPipeline entries provenance).Realizes entries.length g :=
    hreached.realizes rfl rfl
  refine ⟨g, ?_, ?_, ?_⟩
  · refine bind_eq_ok.mpr ⟨b, hb, bind_eq_ok.mpr ⟨s, hs, bind_eq_ok.mpr ⟨g, ?_, rfl⟩⟩⟩
    exact hrealizes.validate_eq_ok hlinked so rfl
  · refine hrealizes.validateAll_eq_ok hlinked so b .default fun i _ => ?_
    change OperatorRegistry.default.check "gemm" ≠ .unsupported
    rw [OperatorRegistry.check_gemm]
    decide
  · rw [hrealizes.topologicalOrder_eq hlinked so, ← map_range_eq_zipIdx]
    rfl

end Llm

/-! ### Dictionary traces -/

section Cv

variable (zero : F) (entries : List (CvEntry F)) (provenance : WorkloadProvenance)

/-- The entry at an index. -/
def cvEntry (idx : ℕ) : CvEntry F := entries.getD idx default

/-- The operator of the entry at an index. -/
def cvOp (idx : ℕ) : String := (cvTraceTypeMap.get? (cvEntry entries idx).entryType).getD ""

/-- The weights of a stage. -/
def cvStageWeights (idx : ℕ) : List TensorSpec :=
  if cvOp entries idx ∈ weightedOps then
    [cvWeight provenance ((cvEntry entries idx).nodeId idx) idx]
  else []

/-- The pipeline of a dictionary trace. -/
def cvPipeline : Pipeline F where
  node i := cvNode zero entries provenance (cvEntry entries i) i (cvOp entries i)
    ((if i = 0 then "t_input" else "t_out_" ++ toString (i - 1)) ::
      (cvStageWeights entries provenance i).map (·.tensorId))
  fresh i := (if i = 0 then [cvInput provenance ((cvEntry entries 0).nodeId 0)] else []) ++
    cvStageWeights entries provenance i
  out i := cvOutput provenance ((cvEntry entries i).nodeId i) i

theorem mem_cvStageWeights {i : ℕ} {t : TensorSpec} (h : t ∈ cvStageWeights entries provenance i) :
    t = cvWeight provenance ((cvEntry entries i).nodeId i) i := by
  unfold cvStageWeights at h
  split_ifs at h
  · exact List.mem_singleton.mp h
  · cases h

theorem mem_cv_fresh {i : ℕ} {t : TensorSpec} (h : t ∈ (cvPipeline zero entries provenance).fresh i) :
    i = 0 ∧ t = cvInput provenance ((cvEntry entries 0).nodeId 0) ∨
      t = cvWeight provenance ((cvEntry entries i).nodeId i) i := by
  rcases List.mem_append.mp h with h | h
  · split_ifs at h with hi
    · exact Or.inl ⟨hi, List.mem_singleton.mp h⟩
    · cases h
  · exact Or.inr (mem_cvStageWeights _ _ h)

theorem cv_linked : (cvPipeline zero entries provenance).Linked where
  nodeId i j h := (numbered_inj h).2
  nodeId_ne i := nodeName_ne _ _
  outId i j h := outId_inj h
  freshId i j t ht t' ht' heq := by
    rcases mem_cv_fresh _ _ _ ht with ⟨rfl, rfl⟩ | rfl
    · rcases mem_cv_fresh _ _ _ ht' with ⟨rfl, -⟩ | rfl
      · rfl
      · exact absurd heq (inputId_ne_weightId j)
    · rcases mem_cv_fresh _ _ _ ht' with ⟨rfl, rfl⟩ | rfl
      · exact absurd heq.symm (inputId_ne_weightId i)
      · exact weightId_inj heq
  freshIds i := by
    have hweights : ((cvStageWeights entries provenance i).map (·.tensorId)).Nodup := by
      unfold cvStageWeights
      split_ifs
      · simp
      · simp
    by_cases hi : i = 0
    · subst hi
      refine List.nodup_cons.mpr ⟨fun hmem => ?_, hweights⟩
      obtain ⟨t, ht, heq⟩ := List.mem_map.mp hmem
      obtain rfl := mem_cvStageWeights _ _ ht
      exact inputId_ne_weightId 0 heq.symm
    · simpa [cvPipeline, hi] using hweights
  freshId_ne i j t ht := by
    rcases mem_cv_fresh _ _ _ ht with ⟨-, rfl⟩ | rfl
    · exact inputId_ne_outId j
    · exact weightId_ne_outId i j
  shapes i t ht d hd := by
    rcases List.mem_append.mp ht with ht | ht
    · rcases mem_cv_fresh _ _ _ ht with ⟨-, rfl⟩ | rfl
      · simp only [cvInput, List.mem_cons, List.not_mem_nil, or_false] at hd
        rcases hd with rfl | rfl | rfl | rfl <;> exact ⟨_, rfl⟩
      · exact ⟨1, List.mem_singleton.mp hd⟩
    · obtain rfl := List.mem_singleton.mp ht
      exact ⟨1, List.mem_singleton.mp hd⟩
  noAlias i t ht := by
    rcases List.mem_append.mp ht with ht | ht
    · rcases mem_cv_fresh _ _ _ ht with ⟨-, rfl⟩ | rfl
      · rfl
      · rfl
    · obtain rfl := List.mem_singleton.mp ht
      rfl
  freshProducer i t ht := by
    rcases mem_cv_fresh _ _ _ ht with ⟨-, rfl⟩ | rfl
    · rfl
    · rfl
  outProducer i := rfl
  outputs i := rfl
  inputs_zero := rfl
  inputs_succ i := rfl
  dependencies i dep hdep j heq := by
    subst heq
    by_cases hi : 0 < i
    · have hprev : (cvEntry entries j).nodeId j = (cvEntry entries (i - 1)).dependencyId (i - 1) := by
        simpa [cvPipeline, cvNode, cvEntry, hi] using hdep
      have hij := (numbered_inj hprev).2
      omega
    · have hnone : ((cvPipeline zero entries provenance).node i).dependencies = [] := if_neg hi
      rw [hnone] at hdep
      cases hdep

/-- The operators of trace entries have names, and `op` is no type. -/
theorem cvTraceTypeMap_spec {entryType op : String} (h : cvTraceTypeMap.get? entryType = some op) :
    isBlank op = false ∧ entryType ≠ "op" := by
  have hmem := Dict.mem_of_get?_ofList h
  simp only [List.mem_cons, Prod.mk.injEq, List.not_mem_nil, or_false] at hmem
  rcases hmem with ⟨rfl, rfl⟩ | ⟨rfl, rfl⟩ | ⟨rfl, rfl⟩ | ⟨rfl, rfl⟩ | ⟨rfl, rfl⟩ | ⟨rfl, rfl⟩ |
    ⟨rfl, rfl⟩ | ⟨rfl, rfl⟩ | ⟨rfl, rfl⟩ | ⟨rfl, rfl⟩ | ⟨rfl, rfl⟩ | ⟨rfl, rfl⟩ | ⟨rfl, rfl⟩ <;>
    exact ⟨by decide, by decide⟩

variable {entries}

/-- Lowering an entry of a supported type adds its stage. -/
theorem lowerCvEntry_ok {registry : OperatorRegistry} {k : ℕ} (hk : k < entries.length) {op : String}
    (hop : cvTraceTypeMap.get? entries[k].entryType = some op) {found : OperatorEntry}
    (hfound : registry.lookup op = .ok found) {s : Lowering F}
    (hs : (cvPipeline zero entries provenance).Reached k s) :
    ∃ s', lowerCvEntry registry zero entries provenance s (entries[k], k) = .ok s' ∧
      (cvPipeline zero entries provenance).Reached (k + 1) s' := by
  have hentry : cvEntry entries k = entries[k] := by simp [cvEntry, hk]
  have hopk : cvOp entries k = op := by rw [cvOp, hentry, hop, Option.getD_some]
  have hone : ∀ d ∈ [Dim.fixed 1], ∃ size, d = .fixed size ∧ 0 < size := by
    intro d hd
    exact ⟨1, List.mem_singleton.mp hd, by omega⟩
  have hinput : ∀ id, (cvInput provenance id).validate = .ok (cvInput provenance id) := by
    intro id
    refine TensorSpec.validate_of_fixed (show isBlank "t_input" = false by decide) ?_ rfl
    intro d hd
    simp only [cvInput, List.mem_cons, List.not_mem_nil, or_false] at hd
    rcases hd with rfl | rfl | rfl | rfl <;> exact ⟨_, rfl, by omega⟩
  have hweights : cvWeights provenance op (entries[k].nodeId k) k =
      .ok (cvStageWeights entries provenance k) := by
    unfold cvWeights cvStageWeights
    rw [hopk, hentry]
    split_ifs
    · rw [TensorSpec.validate_of_fixed (isBlank_append (by decide)) hone rfl]
      rfl
    · rfl
  have hout : (cvOutput provenance (entries[k].nodeId k) k).validate =
      .ok (cvOutput provenance (entries[k].nodeId k) k) :=
    TensorSpec.validate_of_fixed (isBlank_append (by decide)) hone rfl
  have hnode : ∀ inputs, (cvNode zero entries provenance entries[k] k op inputs).validate =
      .ok (cvNode zero entries provenance entries[k] k op inputs) := by
    intro inputs
    refine NodeSpec.validate_eq_ok.mpr ⟨rfl, ?_, (cvTraceTypeMap_spec hop).1⟩
    change isBlank ("n_" ++ _ ++ "_" ++ _) = false
    rw [String.append_assoc, String.append_assoc]
    exact isBlank_append (by decide)
  have hconsumers : ∀ ts : List TensorSpec, (∀ t ∈ ts, ∀ id ∈ t.consumedBy,
      id = entries[k].nodeId k ∨ ∃ t' ∈ s.tensors, id ∈ t'.consumedBy) →
      ∀ t ∈ ts ++ cvStageWeights entries provenance k ++
        [cvOutput provenance (entries[k].nodeId k) k], ∀ id ∈ t.consumedBy,
        id = entries[k].nodeId k ∨ ∃ t' ∈ s.tensors, id ∈ t'.consumedBy := by
    intro ts hts t ht id hid
    rcases List.mem_append.mp ht with ht | ht
    · rcases List.mem_append.mp ht with ht | ht
      · exact hts t ht id hid
      · obtain rfl := mem_cvStageWeights _ _ ht
        rw [hentry] at hid
        exact Or.inl (List.mem_singleton.mp hid)
    · obtain rfl := List.mem_singleton.mp ht
      cases hid
  have hid : ((cvPipeline zero entries provenance).node k).nodeId = entries[k].nodeId k := by
    simp [cvPipeline, cvNode, hentry]
  have hprev := hs.prevOutput
  by_cases hk0 : k = 0
  · subst hk0
    rw [if_pos rfl] at hprev
    simp only [lowerCvEntry, hop, hfound, cvActivation, hprev, hinput, hweights, hout, hnode,
      bind_eq_ok_left, pure_eq_ok]
    refine ⟨_, rfl, hs.next ?_ ?_ ?_ ?_⟩
    · simp [cvPipeline, hentry, hopk, cvInput]
    · simp [cvPipeline, Pipeline.added, hentry]
    · rw [hid]
      refine hconsumers _ fun t ht id hid => ?_
      rcases List.mem_append.mp ht with ht | ht
      · exact Or.inr ⟨t, ht, hid⟩
      · obtain rfl := List.mem_singleton.mp ht
        exact Or.inl (List.mem_singleton.mp hid)
    · simp [cvPipeline, hentry]
  · rw [if_neg hk0] at hprev
    simp only [lowerCvEntry, hop, hfound, cvActivation, hprev, hweights, hout, hnode,
      bind_eq_ok_left, pure_eq_ok]
    refine ⟨_, rfl, hs.next ?_ ?_ ?_ ?_⟩
    · simp [cvPipeline, hentry, hopk, hk0, cvOutput]
    · rw [List.append_assoc, List.map_append, map_unconsumed_addConsumer]
      simp [cvPipeline, Pipeline.added, hentry, hk0]
    · rw [hid]
      exact hconsumers _ fun t ht id hid => consumedBy_addConsumer ht hid
    · simp [cvPipeline, hentry]

/-- The dependency on an entry names a node exactly when the entry has a name. -/
theorem dependencyId_mem_iff {g : WorkloadGraphV1 F}
    (h : (cvPipeline zero entries provenance).Realizes entries.length g) {i : ℕ}
    (hi : i < entries.length) {op : String}
    (hop : cvTraceTypeMap.get? entries[i].entryType = some op) :
    entries[i].dependencyId i ∈ g.nodeIds ↔ entries[i].name ≠ none := by
  have hid : ∀ j (hj : j < entries.length),
      ((cvPipeline zero entries provenance).node j).nodeId = entries[j].nodeId j := by
    intro j hj
    simp [cvPipeline, cvNode, cvEntry, hj]
  rw [h.mem_nodeIds]
  cases hname : entries[i].name with
  | some name =>
    refine iff_of_true ⟨i, hi, ?_⟩ (by simp)
    rw [hid i hi, CvEntry.nodeId, CvEntry.dependencyId, CvEntry.nodeName, hname, Option.getD_some,
      Option.getD_some]
  | none =>
    refine iff_of_false ?_ (by simp)
    rintro ⟨j, hj, heq⟩
    rw [hid j hj] at heq
    obtain rfl := (numbered_inj heq).2
    rw [CvEntry.nodeId, CvEntry.dependencyId, CvEntry.nodeName, hname, Option.getD_none,
      Option.getD_none] at heq
    have hnames := (String.append_right_inj _).mp (numbered_inj heq).1
    have htype : entries[j].entryType = "op" := by
      refine (numbered_inj (i := j) (j := j) (hnames.trans ?_)).1
      rw [← String.toList_inj]
      simp [String.toList_append]
    exact (cvTraceTypeMap_spec hop).2 htype

/-- Every type of a trace is one of an operator that the registry supports. -/
def CvSupported (registry : OperatorRegistry) (trace : List (CvEntry F)) : Prop :=
  ∀ e ∈ trace, ∃ op, cvTraceTypeMap.get? e.entryType = some op ∧
    ∃ found, registry.lookup op = .ok found

/-- In the lowered graph of a dictionary trace with supported types, every dependency names a
node, and the topological order is the order of the trace. -/
def CvInOrder (so : SetOrder) (registry : OperatorRegistry) (zero : F) (trace : List (CvEntry F))
    (graphName : String) (imageCount : Option ℤ) (bindings : Option DimensionBindings) : Prop :=
  ∀ b, bindImageCount imageCount (bindings.getD .unbound) = .ok b → CvSupported registry trace →
    ∃ g, lowerCvDictTrace so registry zero trace graphName imageCount bindings = .ok (g, b) ∧
      (∀ node ∈ g.nodes, ∀ dep ∈ node.dependencies, dep ∈ g.nodeIds) ∧
      g.topologicalOrder so = .ok (trace.zipIdx.map fun e => e.1.nodeId e.2)

/-- Every entry but the last one has a name. -/
def NamedBeforeLast (trace : List (CvEntry F)) : Prop := ∀ e ∈ trace.dropLast, e.name ≠ none

theorem namedBeforeLast_iff : NamedBeforeLast entries ↔
    ∀ i (hi : i + 1 < entries.length), entries[i].name ≠ none := by
  unfold NamedBeforeLast
  rw [List.forall_mem_iff_getElem]
  simp only [List.length_dropLast, List.getElem_dropLast]
  constructor
  · intro h i hi
    exact h i (by omega)
  · intro h i hi
    exact h i (by omega)

/-- A supported trace is lowered to a realization of its pipeline. -/
theorem lowerCvDictTrace_ok (so : SetOrder) {registry : OperatorRegistry} (graphName : String)
    {imageCount : Option ℤ} {bindings : Option DimensionBindings} {b : DimensionBindings}
    (hb : bindImageCount imageCount (bindings.getD .unbound) = .ok b)
    (hsupported : CvSupported registry entries) :
    ∃ g, lowerCvDictTrace so registry zero entries graphName imageCount bindings = .ok (g, b) ∧
      (cvPipeline zero entries { source := "legacy:cv:" ++ graphName }).Realizes entries.length g := by
  let provenance : WorkloadProvenance := { source := "legacy:cv:" ++ graphName }
  obtain ⟨s, hs, hreached⟩ := foldlM_zipIdx_ok (f := lowerCvEntry registry zero entries provenance)
    (P := (cvPipeline zero entries provenance).Reached) entries Pipeline.reached_zero
    fun k hk s hs => by
      obtain ⟨op, hop, found, hfound⟩ := hsupported entries[k] (List.getElem_mem hk)
      exact lowerCvEntry_ok zero provenance hk hop hfound hs
  let g : WorkloadGraphV1 F :=
    { graphName, nodes := s.nodes, tensors := s.tensors, provenance := some provenance }
  have hrealizes : (cvPipeline zero entries provenance).Realizes entries.length g :=
    hreached.realizes rfl rfl
  refine ⟨g, ?_, hrealizes⟩
  refine bind_eq_ok.mpr ⟨b, hb, bind_eq_ok.mpr ⟨s, hs, bind_eq_ok.mpr ⟨g, ?_, rfl⟩⟩⟩
  exact hrealizes.validate_eq_ok (cv_linked zero entries provenance) so rfl

theorem cvInOrder_iff (so : SetOrder) (registry : OperatorRegistry) (graphName : String)
    (imageCount : Option ℤ) (bindings : Option DimensionBindings) :
    CvInOrder so registry zero entries graphName imageCount bindings ↔
      ∀ b, bindImageCount imageCount (bindings.getD .unbound) = .ok b →
        CvSupported registry entries → NamedBeforeLast entries := by
  unfold CvInOrder
  refine forall_congr' fun b => forall_congr' fun hb => forall_congr' fun hsupported => ?_
  obtain ⟨g, hg, hrealizes⟩ := lowerCvDictTrace_ok zero so graphName hb hsupported
  have hmem : ∀ i (hi : i < entries.length),
      entries[i].dependencyId i ∈ g.nodeIds ↔ entries[i].name ≠ none := by
    intro i hi
    obtain ⟨op, hop, -⟩ := hsupported entries[i] (List.getElem_mem hi)
    exact dependencyId_mem_iff zero _ hrealizes hi hop
  have hdeps : ∀ i (hi : i + 1 < entries.length), ∃ node ∈ g.nodes,
      node.dependencies = [entries[i].dependencyId i] := by
    intro i hi
    refine ⟨_, hrealizes.mem_nodes.mpr ⟨i + 1, hi, rfl⟩, ?_⟩
    have hlt : i < entries.length := by omega
    simp [cvPipeline, cvNode, hlt]
  rw [namedBeforeLast_iff]
  constructor
  · rintro ⟨g', hg', hnames, -⟩ i hi
    rw [hg] at hg'
    cases hg'
    obtain ⟨node, hnode, heq⟩ := hdeps i hi
    exact (hmem i (by omega)).mp (hnames node hnode _ (by rw [heq]; exact List.mem_singleton_self _))
  · intro hnamed
    refine ⟨g, hg, ?_, ?_⟩
    · intro node hnode dep hdep
      obtain ⟨i, hi, rfl⟩ := hrealizes.mem_nodes.mp hnode
      cases i with
      | zero => cases hdep
      | succ i =>
        have hlt : i < entries.length := by omega
        have heq : dep = entries[i].dependencyId i := by
          simpa [cvPipeline, cvNode, hlt] using hdep
        rw [heq]
        exact (hmem i hlt).mpr (hnamed i hi)
    · rw [hrealizes.topologicalOrder_eq (cv_linked zero entries _) so, ← map_range_eq_zipIdx]
      rfl

end Cv

/-! ### Both lowerings -/

/-- Tuple traces are always lowered in order, and a dictionary trace exactly when it is rejected
or every entry but the last one has a name. -/
theorem lowersInOrder_iff (F : Type) (so : SetOrder) (graphName : String)
    (bindings : Option DimensionBindings) :
    (∀ trace batchM, LlmInOrder F so trace graphName batchM bindings) ∧
      ∀ registry (zero : F) trace imageCount,
        CvInOrder so registry zero trace graphName imageCount bindings ↔
          ∀ b, bindImageCount imageCount (bindings.getD .unbound) = .ok b →
            CvSupported registry trace → NamedBeforeLast trace :=
  ⟨fun trace batchM => llmInOrder so trace graphName batchM bindings,
    fun registry zero _ imageCount => cvInOrder_iff zero so registry graphName imageCount bindings⟩

/-- An entry without a name is followed by a dependency on no node. -/
theorem unnamed_dangles : ¬CvInOrder (WorkloadGraphV1.lateOrder fun _ => false) .default (0 : ℚ)
    [{ type := some "relu" }, { type := some "relu" }] "legacy_cv" none none := by
  have hsupported : CvSupported (F := ℚ) .default
      [{ type := some "relu" }, { type := some "relu" }] := by
    intro e he
    obtain rfl : e = { type := some "relu" } := by simpa using he
    exact ⟨"relu", by decide, ⟨"relu", .modeled⟩, OperatorRegistry.lookup_relu⟩
  rw [cvInOrder_iff]
  intro h
  exact h .unbound rfl hsupported _ List.mem_cons_self rfl

end Workloads

end NpuArc
