import NpuArc.Dse.Repair
import NpuArc.Library.Lists

/-!
# What a design space generates

The generation of the small coverage set is a run over attempts: the defaults, one replaced
axis, or a replaced engine and process node. Each attempt is repaired on its own and then
contributes a combination or exclusions, and of the combinations with the same axis values
the first is kept. The full mode checks each combination of the cross product.
-/

namespace NpuArc

namespace Dse

variable {V H : Type}

/-! ### The cross product -/

theorem mem_product {α : Type} {ls : List (List α)} {as : List α} :
    as ∈ product ls ↔ List.Forall₂ (· ∈ ·) as ls := by
  induction ls generalizing as with
  | nil => rw [product, List.mem_singleton, List.forall₂_nil_right_iff]
  | cons l ls ih =>
    rw [product, List.mem_flatMap, List.forall₂_cons_right_iff]
    constructor
    · rintro ⟨a, ha, hmem⟩
      obtain ⟨as, has, rfl⟩ := List.mem_map.mp hmem
      exact ⟨a, as, ha, ih.mp has, rfl⟩
    · rintro ⟨a, as, ha, has, rfl⟩
      exact ⟨a, ha, List.mem_map.mpr ⟨as, ih.mpr has, rfl⟩⟩

theorem get?_ofList_zip {axes : List String} (hnodup : axes.Nodup) {raw : List V}
    (hlen : axes.length = raw.length) {a : String} {v : V} :
    (Dict.ofList (axes.zip raw)).get? a = some v ↔ (a, v) ∈ axes.zip raw := by
  constructor
  · exact Dict.mem_of_get?_ofList
  · apply Dict.get?_ofList_of_mem
    rw [List.map_fst_zip (by omega)]
    exact hnodup

/-- What a choice of one value for each entry gives the axis of an entry. -/
private theorem exists_mem_zip {l : List (String × AxisSpec V)} {raw : List V}
    (h : List.Forall₂ (· ∈ ·) raw (l.map fun e => e.2.values)) {e : String × AxisSpec V}
    (he : e ∈ l) : ∃ v ∈ e.2.values, (e.1, v) ∈ (l.map Prod.fst).zip raw := by
  induction l generalizing raw with
  | nil => cases he
  | cons e' l ih =>
    obtain ⟨v, raw, hv, hraw, rfl⟩ := List.forall₂_cons_right_iff.mp h
    rw [List.map_cons, List.zip_cons_cons]
    rcases List.mem_cons.mp he with rfl | he
    · exact ⟨v, hv, List.mem_cons_self⟩
    · obtain ⟨w, hw, hmem⟩ := ih hraw he
      exact ⟨w, hw, List.mem_cons_of_mem _ hmem⟩

namespace DesignSpace

variable {space : DesignSpace V} {combo : Combo V}

/-- A combination of the cross product has a value of each axis. -/
theorem get?_crossProduct (h : combo ∈ space.crossProduct) {a : String} {spec : AxisSpec V}
    (ha : space.axes.get? a = some spec) : ∃ v ∈ spec.values, combo.get? a = some v := by
  obtain ⟨raw, hraw, rfl⟩ := List.mem_map.mp h
  rw [mem_product, Dict.values, List.map_map] at hraw
  obtain ⟨v, hv, hmem⟩ := exists_mem_zip hraw (Dict.get?_eq_some.mp ha)
  have hlen := hraw.length_eq
  rw [List.length_map] at hlen
  refine ⟨v, hv, (get?_ofList_zip space.axes.keys_nodup ?_).mpr hmem⟩
  rw [hlen, Dict.keys, List.length_map]

theorem mem_keys_crossProduct (h : combo ∈ space.crossProduct) (a : String) :
    a ∈ combo.keys ↔ a ∈ space.axes.keys := by
  constructor
  · intro ha
    obtain ⟨raw, hraw, rfl⟩ := List.mem_map.mp h
    obtain ⟨v, hv⟩ := Dict.mem_keys.mp ha
    exact (List.of_mem_zip (Dict.mem_of_get?_ofList hv)).1
  · intro ha
    obtain ⟨spec, hspec⟩ := Dict.mem_keys.mp ha
    obtain ⟨v, -, hv⟩ := get?_crossProduct h hspec
    exact Dict.mem_keys.mpr ⟨v, hv⟩

/-- Every choice of values is a combination of the cross product. -/
theorem exists_mem_crossProduct (f : String → V)
    (hf : ∀ a spec, space.axes.get? a = some spec → f a ∈ spec.values) :
    ∃ combo ∈ space.crossProduct,
      ∀ a, combo.get? a = (space.axes.get? a).map fun _ => f a := by
  have hraw : space.axes.keys.map f ∈ product (space.axes.values.map (·.values)) := by
    rw [mem_product, Dict.keys, Dict.values, List.map_map, List.map_map,
      List.forall₂_map_left_iff, List.forall₂_map_right_iff, List.forall₂_same]
    exact fun e he => hf e.1 e.2 (Dict.get?_eq_some.mpr he)
  refine ⟨_, List.mem_map.mpr ⟨_, hraw, rfl⟩, fun a => ?_⟩
  have hzip : space.axes.keys.zip (space.axes.keys.map f) =
      space.axes.entries.map fun e => (e.1, f e.1) := by
    rw [Dict.keys, List.map_map, List.zip_map']
    rfl
  apply Option.ext
  intro v
  rw [get?_ofList_zip space.axes.keys_nodup (by rw [List.length_map]), hzip,
    Option.map_eq_some_iff, List.mem_map]
  constructor
  · rintro ⟨e, he, heq⟩
    cases heq
    exact ⟨e.2, Dict.get?_eq_some.mpr he, rfl⟩
  · rintro ⟨spec, hspec, rfl⟩
    exact ⟨(a, spec), Dict.get?_eq_some.mp hspec, rfl⟩

end DesignSpace

variable [PyStrings V]

/-! ### Full mode -/

namespace DesignSpace

variable {space : DesignSpace V} {combo : Combo V}

/-- The exclusion of a combination, if it is rejected. -/
def rejection (cs : List (Constraint V)) (combo : Combo V) : Option (ExclusionRecord V) :=
  (firstBroken cs combo).map fun c => exclusionOf c combo (c.blamedAxis combo)

theorem rejection_eq_none {cs : List (Constraint V)} :
    rejection cs combo = none ↔ firstBroken cs combo = none := Option.map_eq_none_iff

theorem check_snd (cs : List (Constraint V)) (combo : Combo V) :
    (check cs combo).2 = rejection cs combo := by
  rw [check_eq, rejection]
  cases firstBroken cs combo <;> rfl

/-- The full mode keeps what is not rejected and records the rejections. -/
theorem fullCombinations_eq : space.fullCombinations =
    (space.crossProduct.filter fun combo => (firstBroken space.constraints combo).isNone,
      space.crossProduct.filterMap (rejection space.constraints)) := by
  have hfold : ∀ (l : List (Combo V)) (acc : List (Combo V) × List (ExclusionRecord V)),
      l.foldl space.addChecked acc =
        (acc.1 ++ l.filter fun combo => (firstBroken space.constraints combo).isNone,
          acc.2 ++ l.filterMap (rejection space.constraints)) := by
    intro l
    induction l with
    | nil => simp
    | cons combo l ih =>
      intro acc
      rw [List.foldl_cons, ih, addChecked, check_eq]
      unfold rejection
      cases hbroken : firstBroken space.constraints combo <;> simp [hbroken]
  unfold fullCombinations
  rw [hfold]
  simp

end DesignSpace

/-! ### Attempts -/

/-- A start of the small coverage set: the defaults, the defaults with one axis replaced, or
with the process node and the engine replaced. -/
inductive Attempt (V : Type)
  | defaults
  | value (axis : String) (v : V)
  | pair (node engine : V)

namespace Attempt

/-- The combination that an attempt starts from. -/
def start (space : DesignSpace V) : Attempt V → Combo V
  | .defaults => space.defaults
  | .value axis v => space.defaults.insert axis v
  | .pair node engine => (space.defaults.insert "process_node" node).insert "engine" engine

/-- The exclusions of an attempt that is repaired to a combination by some changes. -/
def exclusions (space : DesignSpace V) (combo : Combo V) (changes : List (Change V)) :
    Attempt V → List (ExclusionRecord V)
  | .defaults => []
  | .value axis v =>
    match DesignSpace.rejection space.constraints combo with
    | some exclusion => [exclusion]
    | none =>
      if combo.value axis != v then (DesignSpace.recordRepairExclusion {} axis v changes).exclusions
      else []
  | .pair _ _ => (DesignSpace.rejection space.constraints combo).toList

end Attempt

namespace DesignSpace

variable {space : DesignSpace V} {combo : Combo V}

/-- The nodes and engines that are tried together. -/
def pairs (space : DesignSpace V) : List (V × V) :=
  match space.axes.get? "process_node", space.axes.get? "engine" with
  | some nodes, some _ =>
    if space.defaults.value "process_node" == PyValue.null ||
        space.defaults.value "engine" == PyValue.null then []
    else
      (nodes.values.filter fun node => !(node == space.defaults.value "process_node")).flatMap
        fun node =>
          ((engineFullIds.map PyStrings.str).filter fun engine =>
            !(engine == space.defaults.value "engine")).map fun engine => (node, engine)
  | _, _ => []

/-- All attempts in their order. -/
def attempts (space : DesignSpace V) : List (Attempt V) :=
  .defaults ::
    ((space.axes.entries.flatMap fun e => e.2.values.map (Attempt.value e.1)) ++
      space.pairs.map fun pair => Attempt.pair pair.1 pair.2)

/-- What is collected after an attempt that is repaired to a combination by some changes. -/
def collect (space : DesignSpace V) (s : Collected V) (attempt : Attempt V) (combo : Combo V)
    (changes : List (Change V)) : Collected V :=
  { seen := if isValid space.constraints combo then (space.add s combo).seen else s.seen
    exclusions := s.exclusions ++ attempt.exclusions space combo changes }

/-- Make an attempt. -/
def attempt (space : DesignSpace V) (s : Collected V) (a : Attempt V) :
    Except Error (Collected V) := do
  let (combo, changes) ← space.repair (a.start space)
  .ok (space.collect s a combo changes)

theorem exclusions_add (s : Collected V) (combo : Combo V) :
    (space.add s combo).exclusions = s.exclusions := by
  unfold add
  split_ifs <;> rfl

theorem recordRepairExclusion_eq (s : Collected V) (axis : String) (v : V)
    (changes : List (Change V)) : recordRepairExclusion s axis v changes =
      { s with exclusions := s.exclusions ++
          (recordRepairExclusion {} axis v changes).exclusions } := by
  unfold recordRepairExclusion
  split <;> simp

theorem recordCheck_eq (s : Collected V) : space.recordCheck s combo =
    { s with exclusions := s.exclusions ++ (rejection space.constraints combo).toList } := by
  unfold recordCheck
  rw [check_snd]
  cases rejection space.constraints combo <;> simp

theorem isValid_eq : isValid space.constraints combo =
    (rejection space.constraints combo).isNone := by
  rw [Bool.eq_iff_iff, isValid_iff, Option.isNone_iff_eq_none, rejection_eq_none]

theorem tryDefaults_eq (s : Collected V) (changes : List (Change V)) :
    (if isValid space.constraints combo then space.add s combo else s) =
      space.collect s .defaults combo changes := by
  unfold collect Attempt.exclusions
  rw [List.append_nil]
  split_ifs
  · rw [← exclusions_add s combo]
  · rfl

theorem tryValue_eq (axis : String) (s : Collected V) (v : V) :
    space.tryValue axis s v = space.attempt s (.value axis v) := by
  unfold tryValue attempt Attempt.start
  congr 1
  funext r
  dsimp only
  rw [isValid_eq, collect, isValid_eq, Attempt.exclusions, recordCheck_eq]
  cases hrejection : rejection space.constraints r.1 with
  | some exclusion => rfl
  | none =>
    simp only [Option.isNone_none, if_true]
    split_ifs with hlost
    · rw [recordRepairExclusion_eq, exclusions_add]
    · rw [List.append_nil, ← exclusions_add s r.1]

theorem tryPair_eq (s : Collected V) (node engine : V) :
    space.tryPair node s engine = space.attempt s (.pair node engine) := by
  unfold tryPair attempt Attempt.start
  congr 1
  funext r
  dsimp only
  rw [isValid_eq, collect, isValid_eq, Attempt.exclusions, recordCheck_eq]
  cases hrejection : rejection space.constraints r.1 with
  | some exclusion => rfl
  | none =>
    rw [Option.toList_none, List.append_nil, ← exclusions_add s r.1]
    rfl

theorem tryPairs_eq (s : Collected V) : space.tryPairs s =
    (space.pairs.map fun pair => Attempt.pair pair.1 pair.2).foldlM space.attempt s := by
  rw [List.foldlM_map]
  unfold tryPairs pairs
  cases space.axes.get? "process_node" with
  | none => rfl
  | some nodes =>
    cases space.axes.get? "engine" with
    | none => rfl
    | some engines =>
      dsimp only
      split_ifs
      · rfl
      · rw [foldlM_flatMap, foldlM_skip]
        congr 1
        funext s node
        rw [foldlM_skip, List.foldlM_map]
        congr 1
        funext s engine
        exact tryPair_eq s node engine

/-- The small coverage set is collected by a run over the attempts. -/
theorem ciAllAxesCombinations_eq : space.ciAllAxesCombinations =
    space.attempts.foldlM space.attempt {} >>= fun s =>
      .ok (s.seen.map Prod.snd, s.exclusions) := by
  unfold ciAllAxesCombinations attempts
  rw [List.foldlM_cons, attempt, Attempt.start, bind_assoc, bind_assoc]
  congr 1
  funext r
  dsimp only
  rw [tryDefaults_eq _ r.2, bind_eq_ok_left, List.foldlM_append, foldlM_flatMap, bind_assoc]
  simp only [List.foldlM_map, ← tryValue_eq]
  congr 1
  funext s
  rw [tryPairs_eq, List.foldlM_map]

/-! ### The run over the attempts -/

/-- An attempt is repaired to a combination that breaks no constraint. -/
def Yields (space : DesignSpace V) (a : Attempt V) (combo : Combo V) : Prop :=
  ∃ changes, space.repair (a.start space) = .ok (combo, changes) ∧
    firstBroken space.constraints combo = none

/-- The valid combination that an attempt is repaired to, if any. -/
def yield (space : DesignSpace V) (a : Attempt V) : Option (Combo V) :=
  (space.repair (a.start space)).toOption.bind fun r =>
    if isValid space.constraints r.1 then some r.1 else none

theorem yield_eq_some {a : Attempt V} : space.yield a = some combo ↔ space.Yields a combo := by
  unfold yield Yields
  rw [Option.bind_eq_some_iff]
  constructor
  · rintro ⟨⟨combo', changes⟩, hrepair, h⟩
    split_ifs at h with hvalid
    cases h
    exact ⟨changes, toOption_eq_some.mp hrepair, isValid_iff.mp hvalid⟩
  · rintro ⟨changes, hrepair, hbroken⟩
    exact ⟨(combo, changes), toOption_eq_some.mpr hrepair, if_pos (isValid_iff.mpr hbroken)⟩

/-- Whether two combinations have the same axis values. -/
def sameKey (space : DesignSpace V) (combo combo' : Combo V) : Bool :=
  space.key combo == space.key combo'

/-- The combination is the first one with its axis values that an attempt yields. -/
def Kept (space : DesignSpace V) (combo : Combo V) : Prop :=
  Firsts.IsFirst space.sameKey (space.attempts.filterMap space.yield) combo

/-- A collection remembers the axis values of its combinations. -/
def Keyed (space : DesignSpace V) (s : Collected V) : Prop :=
  ∀ e ∈ s.seen, e.1 = space.key e.2

theorem add_keyed {s : Collected V} (hs : space.Keyed s) : space.Keyed (space.add s combo) := by
  unfold add
  split_ifs
  · exact hs
  · intro e he
    rcases List.mem_append.mp he with he | he
    · exact hs e he
    · rw [List.mem_singleton.mp he]

theorem seen_add {s : Collected V} (hs : space.Keyed s) : (space.add s combo).seen.map Prod.snd =
    Firsts.addNew space.sameKey (s.seen.map Prod.snd) combo := by
  have hany : (s.seen.any fun e => space.key combo == e.1) =
      (s.seen.map Prod.snd).any (space.sameKey combo) := by
    rw [List.any_map, Bool.eq_iff_iff, List.any_eq_true, List.any_eq_true]
    refine exists_congr fun e => and_congr_right fun he => ?_
    rw [hs e he]
    rfl
  unfold add Firsts.addNew
  rw [hany]
  split_ifs
  · rfl
  · rw [List.map_append, List.map_singleton]

/-- One attempt adds its combination and its exclusions. -/
theorem attempt_eq_ok {s s' : Collected V} {a : Attempt V} (hs : space.Keyed s)
    (h : space.attempt s a = .ok s') : space.Keyed s' ∧
      s'.seen.map Prod.snd = (space.yield a).toList.foldl (Firsts.addNew space.sameKey)
        (s.seen.map Prod.snd) ∧
      ∃ r, space.repair (a.start space) = .ok r ∧
        s'.exclusions = s.exclusions ++ a.exclusions space r.1 r.2 := by
  obtain ⟨r, hrepair, h⟩ := bind_eq_ok.mp h
  cases h
  have hyield : space.yield a = if isValid space.constraints r.1 then some r.1 else none := by
    unfold yield
    rw [hrepair]
    rfl
  rw [hyield]
  refine ⟨?_, ?_, r, hrepair, rfl⟩
  · unfold collect
    split_ifs
    · exact add_keyed hs
    · exact hs
  · unfold collect
    split_ifs
    · exact seen_add hs
    · rfl

/-- A run over attempts adds their combinations and their exclusions. -/
theorem foldlM_attempt {as : List (Attempt V)} {s s' : Collected V} (hs : space.Keyed s)
    (h : as.foldlM space.attempt s = .ok s') :
    s'.seen.map Prod.snd = (as.filterMap space.yield).foldl (Firsts.addNew space.sameKey)
        (s.seen.map Prod.snd) ∧
      ∀ x, x ∈ s'.exclusions ↔ x ∈ s.exclusions ∨ ∃ a ∈ as, ∃ r,
        space.repair (a.start space) = .ok r ∧ x ∈ a.exclusions space r.1 r.2 := by
  induction as generalizing s with
  | nil =>
    cases h
    simp
  | cons a as ih =>
    rw [List.foldlM_cons] at h
    obtain ⟨s₁, hone, hrest⟩ := bind_eq_ok.mp h
    obtain ⟨hkeyed, hseen, r, hrepair, hexclusions⟩ := attempt_eq_ok hs hone
    obtain ⟨hseen', hexclusions'⟩ := ih hkeyed hrest
    constructor
    · rw [hseen', hseen]
      cases hyield : space.yield a <;> simp [hyield]
    · intro x
      rw [hexclusions', hexclusions, List.mem_append, or_assoc]
      simp only [List.mem_cons, exists_eq_or_imp, hrepair, Except.ok.injEq, exists_eq_left']

theorem sameKey_iff {combo' : Combo V} : space.sameKey combo combo' = true ↔
    ∀ a ∈ space.axes.keys, combo.value a == combo'.value a := by
  unfold sameKey key
  induction space.axes.keys with
  | nil => simp
  | cons a as ih =>
    rw [List.map_cons, List.map_cons, List.forall_mem_cons, ← ih]
    simp

/-- The small coverage set: the first combinations that attempts yield, and the exclusions
of all attempts. -/
theorem ciAllAxesCombinations_eq_ok [EquivBEq V] {combos : List (Combo V)}
    {exclusions : List (ExclusionRecord V)}
    (h : space.ciAllAxesCombinations = .ok (combos, exclusions)) :
    (∀ combo, combo ∈ combos ↔ space.Kept combo) ∧
      ∀ x, x ∈ exclusions ↔ ∃ a ∈ space.attempts, ∃ r,
        space.repair (a.start space) = .ok r ∧ x ∈ a.exclusions space r.1 r.2 := by
  rw [ciAllAxesCombinations_eq] at h
  obtain ⟨s, hrun, h⟩ := bind_eq_ok.mp h
  cases h
  have hkeyed : space.Keyed {} := fun _ he => absurd he List.not_mem_nil
  obtain ⟨hseen, hexclusions⟩ := foldlM_attempt hkeyed hrun
  constructor
  · intro combo
    rw [hseen]
    apply Firsts.mem_foldl_addNew_nil
    intro a b c hab hbc
    rw [sameKey_iff] at hab hbc ⊢
    exact fun axis haxis => PartialEquivBEq.trans (hab axis haxis) (hbc axis haxis)
  · intro x
    rw [hexclusions x]
    simp

end DesignSpace

end Dse

end NpuArc
