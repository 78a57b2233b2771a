import Mathlib.Data.List.Induction
import Mathlib.Algebra.GroupWithZero.Nat
import Mathlib.Data.List.Nodup
import Mathlib.Data.List.Perm.Subperm
import Mathlib.Algebra.BigOperators.Group.List.Basic
import Mathlib.Tactic.Common

/-!
# Insertion-ordered dictionaries

A dictionary is a list of key-value pairs without repeated keys, in the order
in which the keys were first inserted. Updating a present key keeps its place,
and a new key goes to the end. The lemmas reduce every operation to `get?` and
`keys`, so that later proofs never look at the list of entries.
-/

namespace NpuArc

/-- Key-value pairs in insertion order, each key at most once. -/
structure Dict (K V : Type*) where
  /-- The pairs in insertion order. -/
  entries : List (K × V)
  /-- No key occurs twice. -/
  nodup : (entries.map Prod.fst).Nodup

namespace Dict

variable {K V W : Type*}

/-- The dictionary without entries. -/
def empty : Dict K V := ⟨[], by simp⟩

/-- The keys in insertion order. -/
def keys (d : Dict K V) : List K := d.entries.map Prod.fst

/-- The values in insertion order of their keys. -/
def values (d : Dict K V) : List V := d.entries.map Prod.snd

/-- The number of entries. -/
def size (d : Dict K V) : ℕ := d.entries.length

/-- The same keys with each value replaced by a function of its entry. -/
def mapValues (f : K → V → W) (d : Dict K V) : Dict K W :=
  ⟨d.entries.map fun e => (e.1, f e.1 e.2), by
    rw [List.map_map]
    exact d.nodup⟩

/-- The entries whose value is accepted by a partial function, with its results. -/
def filterMapValues (f : V → Option W) (d : Dict K V) : Dict K W :=
  ⟨d.entries.filterMap fun e => (f e.2).map fun w => (e.1, w), by
    have hkeys : ((d.entries.filterMap fun e => (f e.2).map fun w => (e.1, w)).map Prod.fst) =
        (d.entries.filter fun e => (f e.2).isSome).map Prod.fst := by
      induction d.entries with
      | nil => rfl
      | cons e l ih => cases hf : f e.2 <;> simp [hf, ih]
    rw [hkeys]
    exact d.nodup.sublist (List.filter_sublist.map Prod.fst)⟩

theorem keys_nodup (d : Dict K V) : d.keys.Nodup := d.nodup

@[simp] theorem keys_empty : (empty : Dict K V).keys = [] := rfl

@[simp] theorem keys_mapValues (f : K → V → W) (d : Dict K V) :
    (d.mapValues f).keys = d.keys := by
  simp [keys, mapValues]

theorem values_mapValues (f : K → V → W) (d : Dict K V) :
    (d.mapValues f).values = d.entries.map fun e => f e.1 e.2 := by
  simp [values, mapValues]

variable [DecidableEq K]

/-- The value stored under a key. -/
def get? (d : Dict K V) (k : K) : Option V :=
  (d.entries.find? fun e => decide (e.1 = k)).map Prod.snd

/-- Membership test for a key. -/
def contains (d : Dict K V) (k : K) : Bool := (d.get? k).isSome

private theorem nodup_update (l : List (K × V)) (k : K) (v : V) :
    (l.map fun e => if e.1 = k then (k, v) else e).map Prod.fst = l.map Prod.fst := by
  rw [List.map_map]
  apply List.map_congr_left
  intro e _
  by_cases h : e.1 = k <;> simp [h]

/-- Store a value: a present key keeps its place, a new key goes to the end. -/
def insert (d : Dict K V) (k : K) (v : V) : Dict K V :=
  if h : k ∈ d.keys then
    ⟨d.entries.map fun e => if e.1 = k then (k, v) else e, by
      rw [nodup_update]; exact d.nodup⟩
  else
    ⟨d.entries ++ [(k, v)], by
      rw [List.map_append, List.map_singleton]
      exact List.Nodup.append d.nodup (List.nodup_singleton k)
        (List.disjoint_singleton.mpr h)⟩

/-- Remove a key and its value; an absent key changes nothing. -/
def erase (d : Dict K V) (k : K) : Dict K V :=
  ⟨d.entries.filter fun e => decide (e.1 ≠ k),
    d.nodup.sublist (List.filter_sublist.map Prod.fst)⟩

/-- Replace the value under a present key; an absent key changes nothing. -/
def modify (d : Dict K V) (k : K) (f : V → V) : Dict K V :=
  match d.get? k with
  | none => d
  | some v => d.insert k (f v)

/-- Insert the pairs of a list from left to right, later pairs winning. -/
def ofList (l : List (K × V)) : Dict K V :=
  l.foldl (fun d e => d.insert e.1 e.2) empty

/-! ### Lookup -/

/-- Lookup finds exactly the entries of the dictionary. -/
theorem get?_eq_some {d : Dict K V} {k : K} {v : V} :
    d.get? k = some v ↔ (k, v) ∈ d.entries := by
  obtain ⟨l, hnodup⟩ := d
  simp only [get?]
  induction l with
  | nil => simp
  | cons e l ih =>
    rw [List.map_cons, List.nodup_cons] at hnodup
    obtain ⟨a, b⟩ := e
    by_cases h : a = k
    · subst h
      have hnot : (a, v) ∉ l := fun hm => hnodup.1 (List.mem_map.mpr ⟨(a, v), hm, rfl⟩)
      simp [hnot, eq_comm]
    · have h' : ¬k = a := fun hk => h hk.symm
      simp [h, h', ih hnodup.2]

/-- Two dictionaries of the same entries answer the same lookups. -/
theorem get?_eq_of_mem_iff {d : Dict K V} {k : K} {o : Option V}
    (h : ∀ v, (k, v) ∈ d.entries ↔ o = some v) : d.get? k = o := by
  ext v
  rw [get?_eq_some]
  exact h v

@[simp] theorem get?_empty (k : K) : (empty : Dict K V).get? k = none := rfl

/-- A key is listed exactly when its lookup succeeds. -/
theorem mem_keys {d : Dict K V} {k : K} : k ∈ d.keys ↔ ∃ v, d.get? k = some v := by
  simp only [keys, List.mem_map, Prod.exists, exists_and_right, exists_eq_right, get?_eq_some]

/-- A key is missing from the list exactly when its lookup fails. -/
theorem not_mem_keys {d : Dict K V} {k : K} : k ∉ d.keys ↔ d.get? k = none := by
  rw [mem_keys, not_exists, Option.eq_none_iff_forall_ne_some]

/-- The membership test decides membership in the list of keys. -/
theorem contains_iff {d : Dict K V} {k : K} : d.contains k = true ↔ k ∈ d.keys := by
  rw [contains, Option.isSome_iff_exists, mem_keys]

theorem contains_eq_false {d : Dict K V} {k : K} : d.contains k = false ↔ d.get? k = none := by
  rw [contains, Option.isSome_eq_false_iff, Option.isNone_iff_eq_none]

theorem mem_values {d : Dict K V} {v : V} : v ∈ d.values ↔ ∃ k, d.get? k = some v := by
  simp only [values, List.mem_map, Prod.exists, exists_eq_right, get?_eq_some]

/-! ### Insertion -/

private theorem mem_entries_insert {d : Dict K V} {k a : K} {v b : V} :
    (a, b) ∈ (d.insert k v).entries ↔ (a = k ∧ b = v) ∨ (a ≠ k ∧ (a, b) ∈ d.entries) := by
  unfold insert
  split
  · next h =>
    obtain ⟨w, hw⟩ := List.mem_map.mp h
    simp only [List.mem_map]
    constructor
    · rintro ⟨e, he, heq⟩
      by_cases hk : e.1 = k
      · simp only [hk, if_true, Prod.mk.injEq] at heq
        exact Or.inl ⟨heq.1.symm, heq.2.symm⟩
      · simp only [hk, if_false] at heq
        subst heq
        exact Or.inr ⟨hk, he⟩
    · rintro (⟨rfl, rfl⟩ | ⟨hne, hm⟩)
      · exact ⟨w, hw.1, by simp [hw.2]⟩
      · exact ⟨(a, b), hm, by simp [hne]⟩
  · next h =>
    simp only [List.mem_append, List.mem_singleton, Prod.mk.injEq]
    constructor
    · rintro (hm | heq)
      · refine Or.inr ⟨?_, hm⟩
        rintro rfl
        exact h (List.mem_map.mpr ⟨_, hm, rfl⟩)
      · exact Or.inl heq
    · rintro (heq | ⟨_, hm⟩)
      · exact Or.inr heq
      · exact Or.inl hm

/-- Lookup after an insertion. -/
@[simp, grind =] theorem get?_insert (d : Dict K V) (k a : K) (v : V) :
    (d.insert k v).get? a = if a = k then some v else d.get? a := by
  apply get?_eq_of_mem_iff
  intro b
  rw [mem_entries_insert]
  by_cases h : a = k
  · simp [h, eq_comm]
  · simp [h, get?_eq_some]

theorem entries_insert_of_not_mem {d : Dict K V} {k : K} (v : V) (h : k ∉ d.keys) :
    (d.insert k v).entries = d.entries ++ [(k, v)] := by
  unfold insert
  rw [dif_neg h]

/-- Inserting a new key appends it. -/
theorem keys_insert_of_not_mem {d : Dict K V} {k : K} (v : V) (h : k ∉ d.keys) :
    (d.insert k v).keys = d.keys ++ [k] := by
  unfold insert
  rw [dif_neg h]
  simp [keys]

/-- Inserting under a present key leaves the keys as they are. -/
theorem keys_insert_of_mem {d : Dict K V} {k : K} (v : V) (h : k ∈ d.keys) :
    (d.insert k v).keys = d.keys := by
  unfold insert
  rw [dif_pos h]
  exact nodup_update d.entries k v

@[simp] theorem mem_keys_insert {d : Dict K V} {k a : K} {v : V} :
    a ∈ (d.insert k v).keys ↔ a = k ∨ a ∈ d.keys := by
  simp only [mem_keys, get?_insert]
  by_cases h : a = k <;> simp [h]

/-! ### Removal -/

/-- Lookup after a removal. -/
@[simp, grind =] theorem get?_erase (d : Dict K V) (k a : K) :
    (d.erase k).get? a = if a = k then none else d.get? a := by
  apply get?_eq_of_mem_iff
  intro b
  by_cases h : a = k
  · simp [erase, h]
  · simp [erase, h, get?_eq_some]

/-- Removing a key filters the list of keys. -/
theorem keys_erase (d : Dict K V) (k : K) :
    (d.erase k).keys = d.keys.filter fun a => decide (a ≠ k) := by
  simp only [keys, erase, List.filter_map]
  rfl

@[simp] theorem mem_keys_erase {d : Dict K V} {k a : K} :
    a ∈ (d.erase k).keys ↔ a ≠ k ∧ a ∈ d.keys := by
  simp only [mem_keys, get?_erase]
  by_cases h : a = k <;> simp [h]

/-! ### Modification -/

/-- Lookup after a modification. -/
@[simp, grind =] theorem get?_modify (d : Dict K V) (k a : K) (f : V → V) :
    (d.modify k f).get? a = if a = k then (d.get? k).map f else d.get? a := by
  unfold modify
  cases hk : d.get? k with
  | none =>
    by_cases h : a = k
    · simp [h, hk]
    · simp [h]
  | some v => simp

@[simp] theorem keys_modify (d : Dict K V) (k : K) (f : V → V) :
    (d.modify k f).keys = d.keys := by
  unfold modify
  cases hk : d.get? k with
  | none => rfl
  | some v => exact keys_insert_of_mem _ (mem_keys.mpr ⟨v, hk⟩)

@[simp] theorem get?_mapValues (f : K → V → W) (d : Dict K V) (k : K) :
    (d.mapValues f).get? k = (d.get? k).map (f k) := by
  apply get?_eq_of_mem_iff
  intro w
  simp only [mapValues, List.mem_map, Prod.mk.injEq, Prod.exists, Option.map_eq_some_iff,
    get?_eq_some]
  constructor
  · rintro ⟨a, b, hm, rfl, rfl⟩
    exact ⟨b, hm, rfl⟩
  · rintro ⟨b, hm, rfl⟩
    exact ⟨k, b, hm, rfl, rfl⟩

/-- Dictionaries have the same entries up to order when they have the same lookups. -/
theorem entries_perm_iff {d d' : Dict K V} :
    d.entries.Perm d'.entries ↔ ∀ k, d.get? k = d'.get? k := by
  have hnodup : ∀ d : Dict K V, d.entries.Nodup := fun d => List.Nodup.of_map Prod.fst d.nodup
  rw [List.perm_ext_iff_of_nodup (hnodup d) (hnodup d')]
  constructor
  · intro h k
    ext v
    rw [get?_eq_some, get?_eq_some]
    exact h (k, v)
  · intro h e
    rw [← get?_eq_some, ← get?_eq_some, h]

/-- A function that fixes every stored value changes nothing. -/
theorem mapValues_eq_self {f : K → V → V} {d : Dict K V}
    (h : ∀ k v, d.get? k = some v → f k v = v) : d.mapValues f = d := by
  obtain ⟨l, hnodup⟩ := d
  simp only [mapValues, mk.injEq]
  conv_rhs => rw [← List.map_id l]
  refine List.map_congr_left fun e he => ?_
  rw [h e.1 e.2 (get?_eq_some.mpr he), id]

/-- Keeping the entries that a partial function accepts keeps their lookups. -/
@[simp] theorem get?_filterMapValues (f : V → Option W) (d : Dict K V) (k : K) :
    (d.filterMapValues f).get? k = (d.get? k).bind f := by
  apply get?_eq_of_mem_iff
  intro w
  simp only [filterMapValues, List.mem_filterMap, Option.map_eq_some_iff, Prod.mk.injEq,
    Prod.exists, Option.bind_eq_some_iff, get?_eq_some]
  constructor
  · rintro ⟨a, b, hm, w', hw, rfl, rfl⟩
    exact ⟨b, hm, hw⟩
  · rintro ⟨b, hm, hw⟩
    exact ⟨k, b, hm, w, hw, rfl, rfl⟩

/-- Dictionaries with the same keys in the same order and the same lookups are equal. -/
theorem ext_get? {d d' : Dict K V} (hkeys : d.keys = d'.keys)
    (hget : ∀ k, d.get? k = d'.get? k) : d = d' := by
  have hpair : ∀ d : Dict K V, d.entries.map some =
      d.keys.map fun k => (d.get? k).map fun v => (k, v) := by
    intro d
    rw [keys, List.map_map]
    refine List.map_congr_left fun e he => ?_
    rw [Function.comp_apply, get?_eq_some.mpr he, Option.map_some]
  have hentries : d.entries = d'.entries := by
    refine List.map_injective_iff.mpr (fun _ _ h => Option.some.inj h) ?_
    rw [hpair, hpair, hkeys]
    exact List.map_congr_left fun k _ => by rw [hget]
  cases d
  cases d'
  cases hentries
  rfl

/-- Applying an idempotent change at every key of a list changes the values stored under
these keys. -/
theorem foldl_modify_eq_mapValues {f : V → V} (hf : ∀ v, f (f v) = f v) (l : List K)
    (d : Dict K V) : l.foldl (fun d k => d.modify k f) d =
      d.mapValues fun k v => if k ∈ l then f v else v := by
  have hkeys : ∀ (l : List K) (d : Dict K V),
      (l.foldl (fun d k => d.modify k f) d).keys = d.keys := by
    intro l
    induction l with
    | nil => exact fun _ => rfl
    | cons k l ih => exact fun d => (ih _).trans (keys_modify d k f)
  refine ext_get? (by rw [hkeys, keys_mapValues]) fun a => ?_
  rw [get?_mapValues]
  induction l generalizing d with
  | nil => simp
  | cons k l ih =>
    rw [List.foldl_cons, ih, get?_modify]
    by_cases ha : a = k
    · subst ha
      rw [if_pos rfl, Option.map_map]
      congr 1
      funext v
      by_cases hl : a ∈ l <;> simp [hl, hf]
    · rw [if_neg ha]
      simp [ha]

/-! ### Updates -/

/-- Store the pairs of a list one after the other. -/
def update (d : Dict K V) (l : List (K × V)) : Dict K V :=
  l.foldl (fun d e => d.insert e.1 e.2) d

/-- Store a value under a missing key. -/
def setDefault (d : Dict K V) (k : K) (v : V) : Dict K V :=
  if d.contains k then d else d.insert k v

theorem get?_update_of_not_mem {d : Dict K V} {l : List (K × V)} {k : K}
    (h : k ∉ l.map Prod.fst) : (d.update l).get? k = d.get? k := by
  unfold update
  induction l generalizing d with
  | nil => rfl
  | cons e l ih =>
    rw [List.map_cons, List.mem_cons, not_or] at h
    rw [List.foldl_cons, ih h.2, get?_insert, if_neg h.1]

theorem get?_update_of_mem {d : Dict K V} {l : List (K × V)} (hnodup : (l.map Prod.fst).Nodup)
    {k : K} {v : V} (h : (k, v) ∈ l) : (d.update l).get? k = some v := by
  unfold update
  induction l generalizing d with
  | nil => cases h
  | cons e l ih =>
    rw [List.map_cons, List.nodup_cons] at hnodup
    rw [List.foldl_cons]
    rcases List.mem_cons.mp h with rfl | h
    · change ((d.insert k v).update l).get? k = some v
      rw [get?_update_of_not_mem hnodup.1, get?_insert, if_pos rfl]
    · exact ih hnodup.2 h

/-- Updates of one dictionary under the same keys have the same images under every key
exactly when they store the same images. -/
theorem get?_update_eq_iff {f : V → W} {d : Dict K V} {l l' : List (K × V)}
    (hnodup : (l.map Prod.fst).Nodup) (hkeys : l'.map Prod.fst = l.map Prod.fst) :
    (∀ k, ((d.update l).get? k).map f = ((d.update l').get? k).map f) ↔
      l.map (fun e => f e.2) = l'.map fun e => f e.2 := by
  have hnodup' : (l'.map Prod.fst).Nodup := by rwa [hkeys]
  have hother : ∀ {l : List (K × V)} {k : K}, k ∉ l.map Prod.fst →
      (d.update l).get? k = d.get? k := get?_update_of_not_mem
  induction l generalizing l' with
  | nil =>
    rw [List.map_nil, List.map_eq_nil_iff] at hkeys
    simp [hkeys]
  | cons e l ih =>
    cases l' with
    | nil => simp at hkeys
    | cons e' l' =>
      rw [List.map_cons, List.map_cons, List.cons.injEq] at hkeys
      rw [List.map_cons, List.nodup_cons] at hnodup hnodup'
      have hiff := ih hnodup.2 hkeys.2 hnodup'.2
      have hhead : ∀ {e : K × V} {l : List (K × V)}, e.1 ∉ l.map Prod.fst →
          ((d.update (e :: l)).get? e.1) = some e.2 := by
        intro e l he
        change ((d.insert e.1 e.2).update l).get? e.1 = some e.2
        rw [get?_update_of_not_mem he, get?_insert, if_pos rfl]
      have htail : ∀ {e : K × V} {l : List (K × V)} {k : K}, (l.map Prod.fst).Nodup →
          k ≠ e.1 → (d.update (e :: l)).get? k = (d.update l).get? k := by
        intro e l k hl hk
        change ((d.insert e.1 e.2).update l).get? k = _
        by_cases hmem : k ∈ l.map Prod.fst
        · obtain ⟨⟨a, v⟩, hv, rfl⟩ := List.mem_map.mp hmem
          rw [get?_update_of_mem hl hv, get?_update_of_mem hl hv]
        · rw [get?_update_of_not_mem hmem, get?_update_of_not_mem hmem, get?_insert, if_neg hk]
      rw [List.map_cons, List.map_cons, List.cons.injEq]
      refine Iff.trans ?_ (and_congr_right fun _ => hiff)
      constructor
      · intro h
        constructor
        · have hk := h e.1
          rw [hhead hnodup.1, ← hkeys.1, hhead hnodup'.1] at hk
          exact Option.some.inj hk
        · intro k
          by_cases hk : k = e.1
          · rw [hk, hother hnodup.1, hother (by rw [← hkeys.1]; exact hnodup'.1)]
          · have hrest := h k
            rw [htail hnodup.2 hk, htail hnodup'.2 (by rwa [hkeys.1])] at hrest
            exact hrest
      · rintro ⟨hf, hrest⟩ k
        by_cases hk : k = e.1
        · rw [hk, hhead hnodup.1, ← hkeys.1, hhead hnodup'.1, Option.map_some, Option.map_some, hf]
        · rw [htail hnodup.2 hk, htail hnodup'.2 (by rwa [hkeys.1])]
          exact hrest k

theorem get?_setDefault (d : Dict K V) (k a : K) (v : V) :
    (d.setDefault k v).get? a = if a = k then some ((d.get? k).getD v) else d.get? a := by
  unfold setDefault contains
  cases hk : d.get? k with
  | none => simp
  | some w =>
    by_cases ha : a = k
    · subst ha
      simp [hk]
    · simp [ha]

/-- A default under another key may be set before an update. -/
theorem get?_setDefault_update {d : Dict K V} {l : List (K × V)} (hnodup : (l.map Prod.fst).Nodup)
    {k : K} (hk : k ∉ l.map Prod.fst) (v : V) (a : K) :
    ((d.update l).setDefault k v).get? a = ((d.setDefault k v).update l).get? a := by
  rw [get?_setDefault, get?_update_of_not_mem hk]
  by_cases hmem : a ∈ l.map Prod.fst
  · have hne : a ≠ k := by
      rintro rfl
      exact hk hmem
    obtain ⟨⟨a, w⟩, hw, rfl⟩ := List.mem_map.mp hmem
    rw [if_neg hne, get?_update_of_mem hnodup hw, get?_update_of_mem hnodup hw]
  · rw [get?_update_of_not_mem hmem, get?_update_of_not_mem hmem, get?_setDefault]

/-- Store the pairs of a list under missing keys, one after the other. -/
def setDefaults (d : Dict K V) (l : List (K × V)) : Dict K V :=
  l.foldl (fun d e => d.setDefault e.1 e.2) d

/-- Defaults under other keys may be set before an update. -/
theorem get?_setDefaults_update {d : Dict K V} {l : List (K × V)}
    (hnodup : (l.map Prod.fst).Nodup) {defaults : List (K × V)}
    (hkeys : ∀ e ∈ defaults, e.1 ∉ l.map Prod.fst) (a : K) :
    ((d.update l).setDefaults defaults).get? a = ((d.setDefaults defaults).update l).get? a := by
  -- A default only depends on the lookups of the dictionary that it is set in.
  have hcongr : ∀ (defaults : List (K × V)) (d d' : Dict K V), (∀ a, d.get? a = d'.get? a) →
      ∀ a, (d.setDefaults defaults).get? a = (d'.setDefaults defaults).get? a := by
    intro defaults
    induction defaults with
    | nil => exact fun d d' h => h
    | cons e defaults ih =>
      intro d d' h
      apply ih
      intro a
      rw [get?_setDefault, get?_setDefault, h, h]
  unfold setDefaults
  induction defaults generalizing d with
  | nil => rfl
  | cons e defaults ih =>
    rw [List.forall_mem_cons] at hkeys
    rw [List.foldl_cons, List.foldl_cons, ← ih hkeys.2]
    exact hcongr defaults _ _ (get?_setDefault_update hnodup hkeys.1 e.2) a

/-! ### Sums over the values -/

/-- The total weight of the values of a dictionary. -/
def total (d : Dict K V) (weight : V → ℕ) : ℕ := (d.values.map weight).sum

theorem total_eq (d : Dict K V) (weight : V → ℕ) :
    d.total weight = (d.keys.map fun k => (d.get? k).elim 0 weight).sum := by
  unfold total values keys
  rw [List.map_map, List.map_map]
  congr 1
  apply List.map_congr_left
  intro e he
  simp [get?_eq_some.mpr he]

/-- Dictionaries with the same keys and values of the same weights have the same total. -/
theorem total_congr {d d' : Dict K V} {weight : V → ℕ} (hkeys : d'.keys = d.keys)
    (hget : ∀ k, (d'.get? k).elim 0 weight = (d.get? k).elim 0 weight) :
    d'.total weight = d.total weight := by
  rw [total_eq, total_eq, hkeys]
  simp only [hget]

/-- Dictionaries that differ in one value differ in total by its weight. -/
theorem total_add_of_get? {d d' : Dict K V} {weight : V → ℕ} {k : K} {v v' : V}
    (hkeys : d'.keys = d.keys) (hget : d.get? k = some v) (hget' : d'.get? k = some v')
    (hother : ∀ a, a ≠ k → (d'.get? a).elim 0 weight = (d.get? a).elim 0 weight) :
    d'.total weight + weight v = d.total weight + weight v' := by
  rw [total_eq, total_eq, hkeys]
  obtain ⟨before, after, hsplit⟩ := List.append_of_mem (mem_keys.mpr ⟨v, hget⟩)
  have hnodup := d.keys_nodup
  rw [hsplit] at hnodup ⊢
  rw [List.nodup_append, List.nodup_cons] at hnodup
  obtain ⟨_, ⟨hafter, _⟩, hbefore⟩ := hnodup
  have hmap : ∀ l : List K, k ∉ l → (l.map fun a => (d'.get? a).elim 0 weight) =
      l.map fun a => (d.get? a).elim 0 weight := by
    intro l hl
    apply List.map_congr_left
    intro a ha
    apply hother
    rintro rfl
    exact hl ha
  have hold : (d.get? k).elim 0 weight = weight v := by
    rw [hget]
    rfl
  have hnew : (d'.get? k).elim 0 weight = weight v' := by
    rw [hget']
    rfl
  rw [List.map_append, List.map_append, List.map_cons, List.map_cons, List.sum_append,
    List.sum_append, List.sum_cons, List.sum_cons, hmap after hafter,
    hmap before fun hk => hbefore k hk k List.mem_cons_self rfl, hold, hnew]
  omega

/-- Taking one unit of weight from one value takes one from the total. -/
theorem total_add_one {d d' : Dict K V} {weight : V → ℕ} {k : K} {v v' : V}
    (hkeys : d'.keys = d.keys) (hget : d.get? k = some v) (hget' : d'.get? k = some v')
    (hweight : weight v' + 1 = weight v)
    (hother : ∀ a, a ≠ k → (d'.get? a).elim 0 weight = (d.get? a).elim 0 weight) :
    d'.total weight + 1 = d.total weight := by
  have hsum := total_add_of_get? hkeys hget hget' hother
  omega

/-- A new value adds its weight. -/
theorem total_insert {d : Dict K V} {weight : V → ℕ} {k : K} {v : V} (hnew : d.get? k = none) :
    (d.insert k v).total weight = d.total weight + weight v := by
  have hkeys := keys_insert_of_not_mem v (not_mem_keys.mpr hnew)
  have hmap : (d.keys.map fun a => ((d.insert k v).get? a).elim 0 weight) =
      d.keys.map fun a => (d.get? a).elim 0 weight := by
    apply List.map_congr_left
    intro a ha
    rw [get?_insert, if_neg]
    rintro rfl
    exact not_mem_keys.mpr hnew ha
  rw [total_eq, total_eq, hkeys, List.map_append, List.sum_append, hmap]
  simp

/-- Modifying a value exchanges its weight. -/
theorem total_modify {d : Dict K V} {weight : V → ℕ} {k : K} {v : V} (f : V → V)
    (hget : d.get? k = some v) :
    (d.modify k f).total weight + weight v = d.total weight + weight (f v) := by
  have hnew : (d.modify k f).get? k = some (f v) := by
    rw [get?_modify, if_pos rfl, hget]
    rfl
  refine total_add_of_get? (keys_modify d k f) hget hnew fun a ha => ?_
  rw [get?_modify, if_neg ha]

/-- Weights that are nowhere larger have no larger total, and the same total only if they are
everywhere the same. -/
theorem total_le_total {d : Dict K V} {weight weight' : V → ℕ}
    (h : ∀ k v, d.get? k = some v → weight v ≤ weight' v) :
    d.total weight ≤ d.total weight' ∧ (d.total weight = d.total weight' ↔
      ∀ k v, d.get? k = some v → weight v = weight' v) := by
  have hvalues : ∀ v ∈ d.values, weight v ≤ weight' v := by
    intro v hv
    obtain ⟨k, hk⟩ := mem_values.mp hv
    exact h k v hk
  have hforall : (∀ k v, d.get? k = some v → weight v = weight' v) ↔
      ∀ v ∈ d.values, weight v = weight' v := by
    constructor
    · intro hall v hv
      obtain ⟨k, hk⟩ := mem_values.mp hv
      exact hall k v hk
    · intro hall k v hk
      exact hall v (mem_values.mpr ⟨k, hk⟩)
  rw [hforall]
  unfold total
  revert hvalues
  generalize d.values = values
  intro hvalues
  induction values with
  | nil => simp
  | cons v values ih =>
    rw [List.forall_mem_cons] at hvalues
    obtain ⟨hle, heq⟩ := ih hvalues.2
    rw [List.map_cons, List.map_cons, List.sum_cons, List.sum_cons, List.forall_mem_cons, ← heq]
    have hv := hvalues.1
    exact ⟨by omega, by omega⟩

/-! ### Folding over the entries of another dictionary -/

private theorem get?_foldl_modify_aux (f : V → W → V) (l : List (K × W)) (d : Dict K V) (k : K)
    (h : k ∉ l.map Prod.fst) :
    (l.foldl (fun d e => d.modify e.1 (f · e.2)) d).get? k = d.get? k := by
  induction l generalizing d with
  | nil => rfl
  | cons e l ih =>
    simp only [List.map_cons, List.mem_cons, not_or] at h
    rw [List.foldl_cons, ih _ h.2, get?_modify, if_neg h.1]

/-- Modifying a dictionary at every entry of another one combines the two values under
each key that they share. -/
theorem get?_foldl_modify (f : V → W → V) (by' : Dict K W) (d : Dict K V) (k : K) :
    (by'.entries.foldl (fun d e => d.modify e.1 (f · e.2)) d).get? k =
      match by'.get? k with
      | none => d.get? k
      | some w => (d.get? k).map (f · w) := by
  obtain ⟨l, hnodup⟩ := by'
  cases hk : (⟨l, hnodup⟩ : Dict K W).get? k with
  | none =>
    refine get?_foldl_modify_aux f l d k ?_
    exact not_mem_keys.mpr hk
  | some w =>
    have hmem : (k, w) ∈ l := get?_eq_some.mp hk
    clear hk
    induction l generalizing d with
    | nil => simp at hmem
    | cons e l ih =>
      rw [List.map_cons, List.nodup_cons] at hnodup
      simp only [List.foldl_cons]
      rcases List.mem_cons.mp hmem with rfl | hmem
      · rw [get?_foldl_modify_aux f l _ k hnodup.1, get?_modify, if_pos rfl]
      · have hne : k ≠ e.1 := fun h => hnodup.1 (h ▸ List.mem_map_of_mem hmem)
        rw [ih _ hnodup.2 hmem, get?_modify, if_neg hne]

/-! ### Construction from a list -/

private theorem get?_foldl_insert (l : List (K × V)) (d : Dict K V) (k : K)
    (h : k ∉ l.map Prod.fst) :
    (l.foldl (fun d e => d.insert e.1 e.2) d).get? k = d.get? k := by
  induction l generalizing d with
  | nil => rfl
  | cons e l ih =>
    simp only [List.map_cons, List.mem_cons, not_or] at h
    rw [List.foldl_cons, ih _ h.2, get?_insert, if_neg h.1]

/-- When no key is repeated, every pair of the list is found under its key. -/
theorem get?_ofList_of_mem {l : List (K × V)} (hnodup : (l.map Prod.fst).Nodup)
    {k : K} {v : V} (h : (k, v) ∈ l) : (ofList l).get? k = some v := by
  unfold ofList
  generalize empty = d
  induction l generalizing d with
  | nil => simp at h
  | cons e l ih =>
    rw [List.map_cons, List.nodup_cons] at hnodup
    rw [List.foldl_cons]
    rcases List.mem_cons.mp h with rfl | h
    · rw [get?_foldl_insert l _ _ hnodup.1, get?_insert, if_pos rfl]
    · exact ih hnodup.2 h _

private theorem mem_of_get?_foldl_insert {l : List (K × V)} {d : Dict K V} {k : K} {v : V}
    (h : (l.foldl (fun d e => d.insert e.1 e.2) d).get? k = some v) :
    (k, v) ∈ l ∨ d.get? k = some v := by
  induction l generalizing d with
  | nil => exact Or.inr h
  | cons e l ih =>
    rw [List.foldl_cons] at h
    rcases ih h with hm | hd
    · exact Or.inl (List.mem_cons_of_mem e hm)
    · rw [get?_insert] at hd
      split at hd
      · next hk =>
        refine Or.inl (List.mem_cons.mpr (Or.inl ?_))
        obtain ⟨a, b⟩ := e
        simp only [Option.some.injEq] at hd
        simp only at hk
        rw [hk, hd]
      · exact Or.inr hd

/-- Every lookup in a dictionary built from a list returns a pair of that list. -/
theorem mem_of_get?_ofList {l : List (K × V)} {k : K} {v : V}
    (h : (ofList l).get? k = some v) : (k, v) ∈ l :=
  (mem_of_get?_foldl_insert h).resolve_right (by simp)

/-- Reordering the entries of a dictionary does not change lookups. -/
theorem get?_ofList_perm {d : Dict K V} {l : List (K × V)} (h : l.Perm d.entries) (k : K) :
    (ofList l).get? k = d.get? k := by
  have hnodup : (l.map Prod.fst).Nodup := (h.map _).nodup_iff.mpr d.nodup
  cases hd : d.get? k with
  | some v => exact get?_ofList_of_mem hnodup (h.mem_iff.mpr (get?_eq_some.mp hd))
  | none =>
    cases hl : (ofList l).get? k with
    | none => rfl
    | some v =>
      have hmem : d.get? k = some v := get?_eq_some.mpr (h.mem_iff.mp (mem_of_get?_ofList hl))
      rw [hd] at hmem
      cases hmem

/-- The last pair of a list with a key. -/
def lastOf (l : List (K × V)) (k : K) : Option V :=
  ((l.filter fun e => decide (e.1 = k)).getLast?).map Prod.snd

/-- A dictionary built from a list has the last value of each key. -/
theorem get?_ofList (l : List (K × V)) (k : K) : (ofList l).get? k = lastOf l k := by
  unfold ofList lastOf
  induction l using List.reverseRecOn with
  | nil => rfl
  | append_singleton l e ih =>
    rw [List.foldl_append, List.foldl_cons, List.foldl_nil, get?_insert, ih, List.filter_append]
    by_cases hk : k = e.1
    · simp [hk]
    · simp [hk, Ne.symm hk]

/-- The keys of a dictionary built from a list are in the order of the list. -/
theorem keys_ofList_sublist (l : List (K × V)) : (ofList l).keys.Sublist (l.map Prod.fst) := by
  unfold ofList
  induction l using List.reverseRecOn with
  | nil => simp
  | append_singleton l e ih =>
    rw [List.foldl_append, List.foldl_cons, List.foldl_nil, List.map_append]
    generalize l.foldl (fun d e => d.insert e.1 e.2) empty = d at ih ⊢
    by_cases hk : e.1 ∈ d.keys
    · rw [keys_insert_of_mem e.2 hk]
      exact ih.trans (List.sublist_append_left _ _)
    · rw [keys_insert_of_not_mem e.2 hk]
      exact ih.append (List.Sublist.refl _)
/-- Entries with different keys become a dictionary as they are. -/
theorem entries_ofList {l : List (K × V)} (hnodup : (l.map Prod.fst).Nodup) :
    (ofList l).entries = l := by
  induction l using List.reverseRecOn with
  | nil => rfl
  | append_singleton l e ih =>
    rw [List.map_append, List.nodup_append] at hnodup
    obtain ⟨hl, -, hdisjoint⟩ := hnodup
    have hnew : e.1 ∉ (ofList l).keys := fun hmem =>
      hdisjoint e.1 ((keys_ofList_sublist l).subset hmem) e.1 (by simp) rfl
    have hsnoc : ofList (l ++ [e]) = (ofList l).insert e.1 e.2 := by
      rw [ofList, List.foldl_append]
      rfl
    rw [hsnoc, entries_insert_of_not_mem _ hnew, ih hl]

end Dict

end NpuArc
