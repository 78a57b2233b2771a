import NpuArc.Library.Dict

/-!
# Sums over the values of a dictionary

A dictionary is, up to order, one of its entries and the dictionary without it.
Sums of the values in any commutative monoid follow from this.
-/

namespace NpuArc

namespace Dict

variable {K V M : Type*} [DecidableEq K] [AddCommMonoid M]

/-- A stored entry comes first, up to order. -/
theorem entries_perm_cons_erase {d : Dict K V} {k : K} {v : V} (h : d.get? k = some v) :
    d.entries.Perm ((k, v) :: (d.erase k).entries) := by
  have hnodup : ∀ d : Dict K V, d.entries.Nodup := fun d => List.Nodup.of_map Prod.fst d.nodup
  have hnew : (k, v) ∉ (d.erase k).entries := by
    intro hmem
    have hget := get?_eq_some.mpr hmem
    rw [get?_erase, if_pos rfl] at hget
    cases hget
  rw [List.perm_ext_iff_of_nodup (hnodup d) (List.nodup_cons.mpr ⟨hnew, hnodup _⟩)]
  rintro ⟨a, b⟩
  rw [List.mem_cons, ← get?_eq_some, ← get?_eq_some, get?_erase]
  by_cases ha : a = k
  · subst ha
    simp [h, eq_comm]
  · simp [ha]

/-- Removing an absent key changes nothing. -/
theorem erase_of_get?_eq_none {d : Dict K V} {k : K} (h : d.get? k = none) : d.erase k = d := by
  refine ext_get? ?_ ?_
  · rw [keys_erase]
    refine List.filter_eq_self.mpr ?_
    intro a ha
    refine decide_eq_true ?_
    rintro rfl
    exact not_mem_keys.mpr h ha
  · intro a
    rw [get?_erase]
    split_ifs with ha
    · rw [ha, h]
    · rfl

theorem erase_comm (d : Dict K V) (k a : K) : (d.erase k).erase a = (d.erase a).erase k := by
  refine ext_get? ?_ fun b => ?_
  · rw [keys_erase, keys_erase, keys_erase, keys_erase, List.filter_filter, List.filter_filter]
    exact List.filter_congr fun b _ => Bool.and_comm _ _
  · rw [get?_erase, get?_erase, get?_erase, get?_erase]
    split_ifs <;> rfl

/-- Removing a new key again restores the dictionary. -/
theorem erase_insert {d : Dict K V} {k : K} (v : V) (h : d.get? k = none) :
    (d.insert k v).erase k = d := by
  refine ext_get? ?_ ?_
  · have hkey := congrArg keys (erase_of_get?_eq_none h)
    rw [keys_erase] at hkey
    rw [keys_erase, keys_insert_of_not_mem v (not_mem_keys.mpr h), List.filter_append, hkey]
    simp
  · intro a
    rw [get?_erase, get?_insert]
    split_ifs with ha
    · rw [ha, h]
    · rfl

/-- A stored value comes first, up to order. -/
theorem entries_insert_perm (d : Dict K V) (k : K) (v : V) :
    (d.insert k v).entries.Perm ((k, v) :: (d.erase k).entries) := by
  have hget : (d.insert k v).get? k = some v := by rw [get?_insert, if_pos rfl]
  refine (entries_perm_cons_erase hget).trans (List.Perm.cons _ (entries_perm_iff.mpr ?_))
  intro a
  by_cases ha : a = k <;> simp [ha]

/-- The sum of a weight over the values of a dictionary. -/
def sumValues (d : Dict K V) (weight : V → M) : M := (d.values.map weight).sum

omit [DecidableEq K] in
@[simp] theorem sumValues_empty (weight : V → M) :
    (empty : Dict K V).sumValues weight = 0 := rfl

omit [DecidableEq K] in
private theorem sumValues_of_perm {d : Dict K V} {e : K × V} {rest : Dict K V}
    (h : d.entries.Perm (e :: rest.entries)) (weight : V → M) :
    d.sumValues weight = weight e.2 + rest.sumValues weight := by
  have hperm := (h.map Prod.snd).map weight
  simpa [sumValues, values] using hperm.sum_eq

/-- A stored value adds its weight to the sum of the others. -/
theorem sumValues_of_get? {d : Dict K V} {k : K} {v : V} (h : d.get? k = some v)
    (weight : V → M) : d.sumValues weight = weight v + (d.erase k).sumValues weight :=
  sumValues_of_perm (entries_perm_cons_erase h) weight

/-- Storing a value adds its weight to the sum of the values under other keys. -/
theorem sumValues_insert (d : Dict K V) (k : K) (v : V) (weight : V → M) :
    (d.insert k v).sumValues weight = weight v + (d.erase k).sumValues weight :=
  sumValues_of_perm (entries_insert_perm d k v) weight

theorem size_of_get? {d : Dict K V} {k : K} {v : V} (h : d.get? k = some v) :
    d.size = (d.erase k).size + 1 := by
  simpa [size] using (entries_perm_cons_erase h).length_eq

theorem size_insert (d : Dict K V) (k : K) (v : V) :
    (d.insert k v).size = (d.erase k).size + 1 := by
  simpa [size] using (entries_insert_perm d k v).length_eq

theorem size_erase_le (d : Dict K V) (k : K) : (d.erase k).size ≤ d.size :=
  List.length_filter_le _ _

end Dict

end NpuArc
