import NpuArc.Workloads.Schema

/-!
# Dimension bindings

Each canonical axis has a field of its own, and further symbols are bound by an open mapping
that is merged over the canonical axes. Binding a graph succeeds exactly when the validation
of its dimensions does. The mapping is only checked against the names of the fields, and the
field of the axis `batch` has another name, so the mapping can shadow this axis, and its
values need not be positive.
-/

namespace NpuArc

namespace Workloads

variable {F : Type}

/-- The values of the canonical dimensions and of further symbols, before any check. -/
structure BindingFields where
  requestBatch : Option ℤ := none
  activeSequences : Option ℤ := none
  tokenBlock : Option ℤ := none
  imageCount : Option ℤ := none
  actionHorizon : Option ℤ := none
  flowSteps : Option ℤ := none
  residentModels : Option ℤ := none
  inflightJobs : Option ℤ := none
  extra : Dict String ℤ := .empty

namespace BindingFields

/-- The canonical fields under their names. -/
def canonicalFields (b : BindingFields) : List (String × Option ℤ) :=
  [("request_batch", b.requestBatch), ("active_sequences", b.activeSequences),
    ("token_block", b.tokenBlock), ("image_count", b.imageCount),
    ("action_horizon", b.actionHorizon), ("flow_steps", b.flowSteps),
    ("resident_models", b.residentModels), ("inflight_jobs", b.inflightJobs)]

/-- The canonical fields under the names of their axes. -/
def axisMap (b : BindingFields) : List (String × Option ℤ) :=
  [("batch", b.requestBatch), ("active_sequences", b.activeSequences),
    ("token_block", b.tokenBlock), ("image_count", b.imageCount),
    ("action_horizon", b.actionHorizon), ("flow_steps", b.flowSteps),
    ("resident_models", b.residentModels), ("inflight_jobs", b.inflightJobs)]

/-- Validate positive integer values and canonical axis overlap. -/
def check (b : BindingFields) : Except Error Unit := do
  b.canonicalFields.forM fun e =>
    match e.2 with
    | some v =>
      if v ≤ 0 then .error (.valueError (s!"{e.1} must be positive, got {v}")) else .ok ()
    | none => .ok ()
  b.extra.keys.forM fun key =>
    if key ∈ b.canonicalFields.map Prod.fst then
      .error (.valueError ("extra dimension " ++ reprStr key ++
        " shadows canonical field — use the dedicated field instead"))
    else .ok ()

/-- All bound dimensions as a flat mapping. -/
def toDict (b : BindingFields) : Dict String ℤ :=
  (Dict.ofList (b.axisMap.filterMap fun e => e.2.map fun v => (e.1, v))).update b.extra.entries

end BindingFields

/-- Immutable dimension bindings that have passed the checks of their construction. -/
structure DimensionBindings extends BindingFields where
  checked : toBindingFields.check = .ok ()

/-- Constructed bindings. -/
def BindingFields.validate (b : BindingFields) : Except Error DimensionBindings :=
  match h : b.check with
  | .ok () => .ok ⟨b, h⟩
  | .error e => .error e

/-- The bindings without any value. -/
def DimensionBindings.unbound : DimensionBindings := { checked := rfl }

namespace WorkloadGraphV1

/-- The symbolic names used in tensor shapes. -/
def usedSymbols (g : WorkloadGraphV1 F) : List String :=
  g.tensors.flatMap fun t => t.shape.filterMap fun
    | .symbolic name => some name
    | .fixed _ => none

/-- Verify that all symbolic dimensions referenced by the graph are bound. -/
def validateDimensions (g : WorkloadGraphV1 F) (bindings : DimensionBindings) :
    Except Error Unit :=
  let unbound := ((g.usedSymbols.filter fun name => !bindings.toDict.contains name).dedup).insertionSort
    (· ≤ ·)
  match unbound with
  | [] => .ok ()
  | first :: _ => .error (.dimensionBindingError
      ("unbound symbolic dimensions: " ++ reprList unbound) first)

end WorkloadGraphV1

/-- Replace a symbolic dimension by its bound value. -/
def bindDim (bindings : DimensionBindings) : Dim → Except Error Dim
  | .symbolic name =>
    match bindings.toDict.get? name with
    | some v => .ok (.fixed v)
    | none => .error (.dimensionBindingError
        ("symbolic dimension " ++ reprStr name ++ " is not bound") name)
  | .fixed n => .ok (.fixed n)

/-- Return a new graph with all symbolic dimensions replaced by bound values. -/
def applyBindings (g : WorkloadGraphV1 F) (bindings : DimensionBindings) :
    Except Error (WorkloadGraphV1 F) := do
  let tensors ← g.tensors.mapM fun t => do
    let shape ← t.shape.mapM (bindDim bindings)
    return { t with shape }
  return { g with tensors }

/-! ### What the bindings say about a symbol -/

section Bindings

variable (b : DimensionBindings)

theorem positive_of_mem_axisMap {axis : String} {v : ℤ} (h : (axis, some v) ∈ b.axisMap) :
    0 < v := by
  obtain ⟨_, hfields, -⟩ := bind_eq_ok.mp b.checked
  -- The two lists give the same values other names.
  have hvalue : some v ∈ b.axisMap.map Prod.snd := List.mem_map_of_mem h
  change some v ∈ b.canonicalFields.map Prod.snd at hvalue
  obtain ⟨e, he, hv⟩ := List.mem_map.mp hvalue
  have hone := forM_eq_ok.mp hfields e he
  rw [hv] at hone
  dsimp only at hone
  split_ifs at hone with hle
  omega

/-- The open mapping has no canonical axis but `batch`. -/
theorem not_mem_extra {axis : String} (h : axis ∈ b.axisMap.map Prod.fst) (hne : axis ≠ "batch") :
    axis ∉ b.extra.keys := by
  obtain ⟨_, -, hextra⟩ := bind_eq_ok.mp b.checked
  intro hmem
  have hone := forM_eq_ok.mp hextra axis hmem
  have hfield : axis ∈ b.canonicalFields.map Prod.fst :=
    List.mem_cons_of_mem _ ((List.mem_cons.mp h).resolve_left hne)
  rw [if_pos hfield] at hone
  cases hone

theorem axisMap_nodup : (b.axisMap.map Prod.fst).Nodup := by
  simp [BindingFields.axisMap]

/-- A symbol is bound by the open mapping, or else by the field of its axis. -/
theorem get?_toDict {name : String} {v : ℤ} : b.toDict.get? name = some v ↔
    b.extra.get? name = some v ∨ name ∉ b.extra.keys ∧ (name, some v) ∈ b.axisMap := by
  have hmem : ∀ v, (name, v) ∈ b.axisMap.filterMap (fun e => e.2.map fun v => (e.1, v)) ↔
      (name, some v) ∈ b.axisMap := by
    intro v
    rw [List.mem_filterMap]
    constructor
    · rintro ⟨⟨a, o⟩, he, ho⟩
      obtain ⟨w, rfl, hw⟩ := Option.map_eq_some_iff.mp ho
      cases hw
      exact he
    · intro h
      exact ⟨_, h, rfl⟩
  have hnodup : ((b.axisMap.filterMap fun e => e.2.map fun v => (e.1, v)).map Prod.fst).Nodup := by
    have hsub : ∀ l : List (String × Option ℤ),
        ((l.filterMap fun e => e.2.map fun v => (e.1, v)).map Prod.fst).Sublist
          (l.map Prod.fst) := by
      intro l
      induction l with
      | nil => exact List.Sublist.refl _
      | cons e l ih =>
        obtain ⟨a, o⟩ := e
        cases o with
        | none => exact ih.cons a
        | some v => exact ih.cons_cons a
    exact (axisMap_nodup b).sublist (hsub _)
  unfold BindingFields.toDict
  by_cases hextra : name ∈ b.extra.keys
  · obtain ⟨w, hw⟩ := Dict.mem_keys.mp hextra
    rw [Dict.get?_update_of_mem b.extra.nodup (Dict.get?_eq_some.mp hw), hw]
    simp [hextra]
  · rw [Dict.get?_update_of_not_mem hextra, Dict.not_mem_keys.mp hextra, ← hmem]
    simp only [reduceCtorEq, hextra, not_false_iff, true_and, false_or]
    exact ⟨Dict.mem_of_get?_ofList, Dict.get?_ofList_of_mem hnodup⟩

end Bindings

/-! ### Binding a graph -/

/-- The value that a dimension is bound to. -/
inductive BindsTo (b : DimensionBindings) : Dim → Dim → Prop
  | fixed (n : ℤ) : BindsTo b (.fixed n) (.fixed n)
  | symbolic {name : String} {v : ℤ} (h : b.toDict.get? name = some v) :
      BindsTo b (.symbolic name) (.fixed v)

theorem bindDim_eq_ok {b : DimensionBindings} {d d' : Dim} :
    bindDim b d = .ok d' ↔ BindsTo b d d' := by
  constructor
  · intro h
    cases d with
    | fixed n =>
      cases h
      exact .fixed n
    | symbolic name =>
      rw [bindDim] at h
      cases hv : b.toDict.get? name with
      | some v =>
        rw [hv] at h
        cases h
        exact .symbolic hv
      | none =>
        rw [hv] at h
        cases h
  · intro h
    cases h with
    | fixed n => rfl
    | symbolic hv => rw [bindDim, hv]

/-- A tensor with other dimensions. -/
def Reshaped (R : Dim → Dim → Prop) (t t' : TensorSpec) : Prop :=
  List.Forall₂ R t.shape t'.shape ∧ t' = { t with shape := t'.shape }

theorem applyBindings_eq_ok {b : DimensionBindings} {g g' : WorkloadGraphV1 F} :
    applyBindings g b = .ok g' ↔ List.Forall₂ (Reshaped (BindsTo b)) g.tensors g'.tensors ∧
      g' = { g with tensors := g'.tensors } := by
  unfold applyBindings
  rw [bind_eq_ok]
  simp only [mapM_eq_ok, bind_eq_ok]
  have htensor : ∀ t t' : TensorSpec,
      (∃ shape, List.Forall₂ (fun d d' => bindDim b d = .ok d') t.shape shape ∧
        (pure { t with shape } : Except Error TensorSpec) = .ok t') ↔ Reshaped (BindsTo b) t t' := by
    intro t t'
    simp only [bindDim_eq_ok]
    constructor
    · rintro ⟨shape, hshape, h⟩
      cases h
      exact ⟨hshape, rfl⟩
    · rintro ⟨hshape, h⟩
      exact ⟨t'.shape, hshape, congrArg Except.ok h.symm⟩
  simp only [htensor]
  constructor
  · rintro ⟨tensors, htensors, h⟩
    cases h
    exact ⟨htensors, rfl⟩
  · rintro ⟨htensors, h⟩
    exact ⟨g'.tensors, htensors, congrArg Except.ok h.symm⟩

/-- A relation reaches some list from every list whose elements it reaches something from. -/
theorem exists_forall₂ {α β : Type} {R : α → β → Prop} {l : List α} :
    (∃ l', List.Forall₂ R l l') ↔ ∀ a ∈ l, ∃ b, R a b := by
  induction l with
  | nil => simp
  | cons a l ih =>
    rw [List.forall_mem_cons, ← ih]
    constructor
    · rintro ⟨l', h⟩
      obtain ⟨b, l', hab, hl, rfl⟩ := List.forall₂_cons_left_iff.mp h
      exact ⟨⟨b, hab⟩, l', hl⟩
    · rintro ⟨⟨b, hab⟩, l', hl⟩
      exact ⟨b :: l', .cons hab hl⟩

/-- The symbols of a graph are the symbolic dimensions of its tensors. -/
theorem WorkloadGraphV1.mem_usedSymbols {g : WorkloadGraphV1 F} {name : String} :
    name ∈ g.usedSymbols ↔ ∃ t ∈ g.tensors, .symbolic name ∈ t.shape := by
  unfold usedSymbols
  simp only [List.mem_flatMap, List.mem_filterMap]
  refine exists_congr fun t => and_congr_right fun _ => ?_
  constructor
  · rintro ⟨d, hd, h⟩
    cases d with
    | fixed n => cases h
    | symbolic s =>
      cases h
      exact hd
  · intro h
    exact ⟨_, h, rfl⟩

theorem WorkloadGraphV1.validateDimensions_eq_ok {g : WorkloadGraphV1 F}
    {b : DimensionBindings} : g.validateDimensions b = .ok () ↔
      ∀ name ∈ g.usedSymbols, ∃ v, b.toDict.get? name = some v := by
  unfold validateDimensions
  have hnil : ((g.usedSymbols.filter fun name => !b.toDict.contains name).dedup).insertionSort
      (· ≤ ·) = [] ↔ ∀ name ∈ g.usedSymbols, ∃ v, b.toDict.get? name = some v := by
    rw [← List.length_eq_zero_iff, List.length_insertionSort, List.length_eq_zero_iff,
      List.dedup_eq_nil, List.filter_eq_nil_iff]
    simp [← Dict.mem_keys, Dict.contains_iff]
  rw [← hnil]
  dsimp only
  split <;> simp_all

/-- The binding of a graph succeeds exactly when its dimensions are valid. -/
theorem applyBindings_ok_iff (g : WorkloadGraphV1 F) (b : DimensionBindings) :
    (∃ g', applyBindings g b = .ok g') ↔ g.validateDimensions b = .ok () := by
  have hdim : ∀ d, (∃ d', BindsTo b d d') ↔
      ∀ name, d = .symbolic name → ∃ v, b.toDict.get? name = some v := by
    intro d
    constructor
    · rintro ⟨d', h⟩ name rfl
      cases h with
      | symbolic hv => exact ⟨_, hv⟩
    · intro h
      cases d with
      | fixed n => exact ⟨_, .fixed n⟩
      | symbolic name =>
        obtain ⟨v, hv⟩ := h name rfl
        exact ⟨_, .symbolic hv⟩
  have htensor : ∀ t : TensorSpec, (∃ t', Reshaped (BindsTo b) t t') ↔
      ∀ d ∈ t.shape, ∃ d', BindsTo b d d' := by
    intro t
    rw [← exists_forall₂]
    constructor
    · rintro ⟨t', h, -⟩
      exact ⟨_, h⟩
    · rintro ⟨shape, h⟩
      exact ⟨{ t with shape }, h, rfl⟩
  have hgraph : (∃ g', applyBindings g b = .ok g') ↔
      ∀ t ∈ g.tensors, ∃ t', Reshaped (BindsTo b) t t' := by
    simp only [applyBindings_eq_ok]
    rw [← exists_forall₂]
    constructor
    · rintro ⟨g', h, -⟩
      exact ⟨_, h⟩
    · rintro ⟨tensors, h⟩
      exact ⟨{ g with tensors }, h, rfl⟩
  rw [hgraph, WorkloadGraphV1.validateDimensions_eq_ok]
  simp only [htensor, hdim, WorkloadGraphV1.mem_usedSymbols]
  constructor
  · rintro h name ⟨t, ht, hname⟩
    exact h t ht _ hname name rfl
  · rintro h t ht d hd name rfl
    exact h name ⟨t, ht, hd⟩

/-! ### The intended binding -/

/-- What a dimension is meant to be bound to: a positive integer, which on a canonical axis
is the value of its field. -/
def Intended (b : DimensionBindings) (d d' : Dim) : Prop :=
  ∃ v, 0 < v ∧ d' = .fixed v ∧ (∀ n, d = .fixed n → v = n) ∧
    ∀ name field, d = .symbolic name → (name, field) ∈ b.axisMap → field = some v

/-- The binding of a graph succeeds exactly when the validation does, and then it replaces
every dimension by the intended value and changes nothing else. -/
def BindsAsIntended (g : WorkloadGraphV1 F) (b : DimensionBindings) : Prop :=
  ((∃ g', applyBindings g b = .ok g') ↔ g.validateDimensions b = .ok ()) ∧
    ∀ g', applyBindings g b = .ok g' →
      List.Forall₂ (Reshaped (Intended b)) g.tensors g'.tensors ∧
        g' = { g with tensors := g'.tensors }

/-- A dimension that the open mapping does not spoil: an integer is positive, and so is the
value of the mapping for a symbol, which for the batch axis is the value of its field. -/
def Unspoilt (b : DimensionBindings) : Dim → Prop
  | .fixed n => 0 < n
  | .symbolic name => ∀ v, b.extra.get? name = some v →
      0 < v ∧ (name = "batch" → b.requestBatch = some v)

theorem intended_iff {b : DimensionBindings} {d d' : Dim} (h : BindsTo b d d') :
    Intended b d d' ↔ Unspoilt b d := by
  cases h with
  | fixed n =>
    constructor
    · rintro ⟨v, hv, -, hn, -⟩
      rw [hn n rfl] at hv
      exact hv
    · intro hn
      exact ⟨n, hn, rfl, fun m hm => by cases hm; rfl, fun name field hname => by cases hname⟩
  | @symbolic name v hv =>
    have hbatch : ∀ field, ("batch", field) ∈ b.axisMap ↔ field = b.requestBatch := by
      intro field
      simp [BindingFields.axisMap]
    constructor
    · rintro ⟨w, hw, heq, -, hfield⟩ u hu
      cases heq
      have huv : u = v := by
        have h := (get?_toDict b).mpr (Or.inl hu)
        rw [hv] at h
        exact (Option.some.inj h).symm
      subst huv
      refine ⟨hw, fun hname => ?_⟩
      subst hname
      exact hfield "batch" b.requestBatch rfl ((hbatch _).mpr rfl)
    · intro h
      rcases (get?_toDict b).mp hv with hextra | ⟨-, haxis⟩
      · obtain ⟨hpos, hfield⟩ := h v hextra
        refine ⟨v, hpos, rfl, fun n hn => (by cases hn), fun name' field hname hmem => ?_⟩
        cases hname
        by_cases hb : name = "batch"
        · subst hb
          rw [(hbatch field).mp hmem]
          exact hfield rfl
        · exact absurd (Dict.mem_keys.mpr ⟨v, hextra⟩)
            (not_mem_extra b (List.mem_map_of_mem hmem) hb)
      · refine ⟨v, positive_of_mem_axisMap b haxis, rfl, fun n hn => (by cases hn),
          fun name' field hname hmem => ?_⟩
        cases hname
        exact congrArg Prod.snd (List.inj_on_of_nodup_map (axisMap_nodup b) hmem haxis rfl)

/-- The members of related lists are pairwise related in another way exactly when the members
of the first list satisfy a condition. -/
theorem forall₂_iff_of_forall₂ {α β : Type} {R S : α → β → Prop} {P : α → Prop} {l : List α}
    {l' : List β} (h : List.Forall₂ R l l') (hiff : ∀ a b, R a b → (S a b ↔ P a)) :
    List.Forall₂ S l l' ↔ ∀ a ∈ l, P a := by
  induction h with
  | nil => simp
  | cons hab _ ih => rw [List.forall₂_cons, List.forall_mem_cons, hiff _ _ hab, ih]

/-- A graph is bound as intended exactly when its dimensions are not valid or the open mapping
spoils none of them. -/
theorem bindsAsIntended_iff (g : WorkloadGraphV1 F) (b : DimensionBindings) :
    BindsAsIntended g b ↔
      (g.validateDimensions b = .ok () → ∀ t ∈ g.tensors, ∀ d ∈ t.shape, Unspoilt b d) := by
  have htensors : ∀ g', applyBindings g b = .ok g' →
      (List.Forall₂ (Reshaped (Intended b)) g.tensors g'.tensors ↔
        ∀ t ∈ g.tensors, ∀ d ∈ t.shape, Unspoilt b d) := by
    intro g' h
    refine forall₂_iff_of_forall₂ (applyBindings_eq_ok.mp h).1 fun t t' hreshaped => ?_
    unfold Reshaped
    rw [and_iff_left hreshaped.2]
    exact forall₂_iff_of_forall₂ hreshaped.1 fun d d' => intended_iff
  unfold BindsAsIntended
  rw [and_iff_right (applyBindings_ok_iff g b), ← applyBindings_ok_iff]
  constructor
  · rintro h ⟨g', hok⟩
    exact (htensors g' hok).mp (h g' hok).1
  · intro h g' hok
    exact ⟨(htensors g' hok).mpr (h ⟨g', hok⟩), (applyBindings_eq_ok.mp hok).2⟩

/-- A mapping that has the batch axis overrides the requested batch. -/
theorem batch_shadowed : ∃ b : DimensionBindings, b.requestBatch = some 4 ∧
    ¬BindsAsIntended (F := ℚ) { tensors := [{ tensorId := "t", shape := [.symbolic "batch"] }] } b := by
  refine ⟨{ requestBatch := some 4, extra := .ofList [("batch", 7)], checked := by decide +kernel },
    rfl, ?_⟩
  rintro ⟨-, h⟩
  obtain ⟨htensors, -⟩ := h { tensors := [{ tensorId := "t", shape := [.fixed 7] }] } rfl
  obtain ⟨⟨hshape, -⟩, -⟩ := List.forall₂_cons.mp htensors
  obtain ⟨⟨v, -, hv, -, hfield⟩, -⟩ := List.forall₂_cons.mp hshape
  have hbatch := hfield "batch" (some 4) rfl List.mem_cons_self
  cases hv
  cases hbatch

end Workloads

end NpuArc
