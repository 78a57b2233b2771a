import NpuArc.Contracts.Errors
import NpuArc.Contracts.Identity

/-!
# Canonical JSON

The canonical form writes a float as the string of its printed form and a key as a string,
and sorts the members of a mapping. So it does not tell a float from this string, a list
from a tuple, or an integer key from its digits, and of the entries whose keys have one text
only the last one is left. It tells everything else apart.
-/

namespace NpuArc

/-- A key of a mapping. -/
inductive DictKey
  | int (n : ℤ)
  | str (s : String)
  deriving DecidableEq

/-- A JSON-like Python value over a type of floats. The entries of a mapping are in the
order of their insertion. -/
inductive PyData (F : Type)
  | null
  | bool (b : Bool)
  | int (n : ℤ)
  | float (x : F)
  | str (s : String)
  | list (l : List (PyData F))
  | tuple (l : List (PyData F))
  | dict (l : List (DictKey × PyData F))

/-- The text of a key. -/
def DictKey.text : DictKey → String
  | .int n => String.ofList (Json.intText n)
  | .str s => s

/-! ### Writing -/

namespace PyData

variable {F : Type}

/-- The name of the type of a value. -/
def typeName : PyData F → String
  | .null => "NoneType"
  | .bool _ => "bool"
  | .int _ => "int"
  | .float _ => "float"
  | .str _ => "str"
  | .list _ => "list"
  | .tuple _ => "tuple"
  | .dict _ => "dict"

variable (floatRepr : F → String)

mutual

/-- Recursively normalise a value for deterministic serialization. -/
def normaliseValue : PyData F → Json
  | .null => .null
  | .bool b => .bool b
  | .int n => .int n
  | .float x => .str (floatRepr x)
  | .str s => .str s
  | .list l => .list (normaliseList l)
  | .tuple l => .list (normaliseList l)
  | .dict l => .dict (Dict.ofList ((normaliseItems l).insertionSort fun a b => a.1 ≤ b.1)).entries

def normaliseList : List (PyData F) → List Json
  | [] => []
  | a :: l => normaliseValue a :: normaliseList l

def normaliseItems : List (DictKey × PyData F) → List (String × Json)
  | [] => []
  | e :: l => (e.1.text, normaliseValue e.2) :: normaliseItems l

end

/-- A normalised mapping. -/
def normaliseForHashing (obj : PyData F) : Except Error Json :=
  match normaliseValue floatRepr obj with
  | .dict l => .ok (.dict l)
  | _ => .error (.valueError
      ("normalise_for_hashing requires a dict input, got " ++ obj.typeName))

end PyData

namespace Json

mutual

/-- A value with the members of its objects sorted by key. -/
def sortKeys : Json → Json
  | .null => .null
  | .bool b => .bool b
  | .int n => .int n
  | .str s => .str s
  | .list l => .list (sortKeysList l)
  | .dict l => .dict ((sortKeysMembers l).insertionSort fun a b => a.1 ≤ b.1)

def sortKeysList : List Json → List Json
  | [] => []
  | a :: l => sortKeys a :: sortKeysList l

def sortKeysMembers : List (String × Json) → List (String × Json)
  | [] => []
  | e :: l => (e.1, sortKeys e.2) :: sortKeysMembers l

end

theorem sortKeysList_eq (l : List Json) : sortKeysList l = l.map sortKeys := by
  induction l with
  | nil => rw [sortKeysList, List.map_nil]
  | cons a l ih => rw [sortKeysList, List.map_cons, ih]

theorem sortKeysMembers_eq (l : List (String × Json)) :
    sortKeysMembers l = l.map fun e => (e.1, sortKeys e.2) := by
  induction l with
  | nil => rw [sortKeysMembers, List.map_nil]
  | cons e l ih => rw [sortKeysMembers, List.map_cons, ih]

end Json

namespace PyData

variable {F : Type}

/-- Serialize a mapping to canonical JSON, which is ASCII. -/
def canonicalJsonBytes (floatRepr : F → String) (obj : PyData F) : Except Error String := do
  let normalised ← normaliseForHashing floatRepr obj
  .ok (String.ofList normalised.sortKeys.text)

/-! ### Two relations between values -/

/-- Equality up to the order of keys. -/
inductive Same : PyData F → PyData F → Prop
  | null : Same .null .null
  | bool (b : Bool) : Same (.bool b) (.bool b)
  | int (n : ℤ) : Same (.int n) (.int n)
  | float (x : F) : Same (.float x) (.float x)
  | str (s : String) : Same (.str s) (.str s)
  | list {l l' : List (PyData F)} (h : List.Forall₂ Same l l') : Same (.list l) (.list l')
  | tuple {l l' : List (PyData F)} (h : List.Forall₂ Same l l') : Same (.tuple l) (.tuple l')
  | dict {l l' : List (DictKey × PyData F)}
      (h : ∀ k, Option.Rel Same (l.lookup k) (l'.lookup k)) : Same (.dict l) (.dict l')

/-- The string that a value is written as, if it is written as one. -/
def textOf (floatRepr : F → String) : PyData F → Option String
  | .str s => some s
  | .float x => some (floatRepr x)
  | _ => none

/-- The elements of a list or a tuple. -/
def elements : PyData F → Option (List (PyData F))
  | .list l => some l
  | .tuple l => some l
  | _ => none

/-- The value of the last entry whose key has a text. -/
def surviving (l : List (DictKey × PyData F)) (k : String) : Option (PyData F) :=
  ((l.filter fun e => decide (e.1.text = k)).getLast?).map Prod.snd

/-- Equality up to what the canonical form forgets: the order of keys, whether a string was
a float, a sequence a tuple and a key an integer, and the entries before the last one whose
key has the same text. -/
inductive Alike (floatRepr : F → String) : PyData F → PyData F → Prop
  | null : Alike floatRepr .null .null
  | bool (b : Bool) : Alike floatRepr (.bool b) (.bool b)
  | int (n : ℤ) : Alike floatRepr (.int n) (.int n)
  | text {a b : PyData F} {s : String} (ha : a.textOf floatRepr = some s)
      (hb : b.textOf floatRepr = some s) : Alike floatRepr a b
  | sequence {a b : PyData F} {l l' : List (PyData F)} (ha : a.elements = some l)
      (hb : b.elements = some l') (h : List.Forall₂ (Alike floatRepr) l l') :
      Alike floatRepr a b
  | dict {l l' : List (DictKey × PyData F)}
      (h : ∀ k, Option.Rel (Alike floatRepr) (surviving l k) (surviving l' k)) :
      Alike floatRepr (.dict l) (.dict l')

/-- Induction over values. -/
theorem induct {P : PyData F → Prop} (null : P .null) (bool : ∀ b, P (.bool b))
    (int : ∀ n, P (.int n)) (float : ∀ x, P (.float x)) (str : ∀ s, P (.str s))
    (list : ∀ l, (∀ a ∈ l, P a) → P (.list l)) (tuple : ∀ l, (∀ a ∈ l, P a) → P (.tuple l))
    (dict : ∀ l, (∀ e ∈ l, P (Prod.snd e)) → P (.dict l)) (a : PyData F) : P a :=
  @PyData.rec F P (fun l => ∀ a ∈ l, P a) (fun l => ∀ e ∈ l, P (Prod.snd e)) (fun e => P e.2)
    null bool int float str list tuple dict (fun _ h => absurd h List.not_mem_nil)
    (fun _ _ ha hl => List.forall_mem_cons.mpr ⟨ha, hl⟩) (fun _ h => absurd h List.not_mem_nil)
    (fun _ _ he hl => List.forall_mem_cons.mpr ⟨he, hl⟩) (fun _ _ h => h) a

/-! ### What the canonical form determines -/

section Normalise

variable {floatRepr : F → String} {a b : PyData F} {l l' : List (DictKey × PyData F)}

theorem normaliseList_eq (l : List (PyData F)) :
    normaliseList floatRepr l = l.map (normaliseValue floatRepr) := by
  induction l with
  | nil => rw [normaliseList, List.map_nil]
  | cons a l ih => rw [normaliseList, List.map_cons, ih]

theorem normaliseItems_eq (l : List (DictKey × PyData F)) : normaliseItems floatRepr l =
    l.map fun e => (e.1.text, normaliseValue floatRepr e.2) := by
  induction l with
  | nil => rw [normaliseItems, List.map_nil]
  | cons e l ih => rw [normaliseItems, List.map_cons, ih]

/-- The members of a normalised mapping. -/
def normalisedItems (floatRepr : F → String) (l : List (DictKey × PyData F)) : Dict String Json :=
  Dict.ofList ((normaliseItems floatRepr l).insertionSort fun a b => a.1 ≤ b.1)

theorem normaliseValue_dict (l : List (DictKey × PyData F)) :
    normaliseValue floatRepr (.dict l) = .dict (normalisedItems floatRepr l).entries := by
  rw [normaliseValue, normalisedItems]

/-- Sorting is stable, so the last entry with a key text is the one that survives. -/
theorem get?_normalisedItems (l : List (DictKey × PyData F)) (k : String) :
    (normalisedItems floatRepr l).get? k = (surviving l k).map (normaliseValue floatRepr) := by
  have hstable := TiedSort.filter_insertionSort (r := fun a b : String × Json => a.1 ≤ b.1)
    (normaliseItems floatRepr l) (fun e => decide (e.1 = k)) fun a b ha hb => by
      rw [of_decide_eq_true ha, of_decide_eq_true hb]
  rw [normalisedItems, Dict.get?_ofList, Dict.lastOf, hstable, normaliseItems_eq, List.filter_map,
    List.getLast?_map, Option.map_map, surviving, Option.map_map]
  rfl

/-- The members of a normalised mapping are sorted. -/
theorem normalisedItems_sorted (l : List (DictKey × PyData F)) :
    (normalisedItems floatRepr l).entries.insertionSort (fun a b => a.1 ≤ b.1) =
      (normalisedItems floatRepr l).entries := by
  have hsorted : ((normaliseItems floatRepr l).insertionSort fun a b => a.1 ≤ b.1).Pairwise
      fun a b => a.1 ≤ b.1 := by
    have : Std.Total fun a b : String × Json => a.1 ≤ b.1 := ⟨fun _ _ => String.le_total _ _⟩
    have : IsTrans (String × Json) fun a b => a.1 ≤ b.1 := ⟨fun _ _ _ => String.le_trans⟩
    exact List.pairwise_insertionSort _ _
  have hkeys : (normalisedItems floatRepr l).keys.Pairwise (· ≤ ·) :=
    (List.pairwise_map.mpr hsorted).sublist (Dict.keys_ofList_sublist _)
  exact List.Pairwise.insertionSort_eq (List.pairwise_map.mp hkeys)

theorem normalisedItems_eq_iff : (normalisedItems floatRepr l).entries =
      (normalisedItems floatRepr l').entries ↔
    ∀ k, (surviving l k).map (normaliseValue floatRepr) =
      (surviving l' k).map (normaliseValue floatRepr) := by
  rw [← normalisedItems_sorted, ← normalisedItems_sorted l', Hashing.sortedEntries_eq_iff]
  simp only [get?_normalisedItems]

theorem mem_of_surviving {k : String} (h : surviving l k = some a) :
    ∃ e ∈ l, e.1.text = k ∧ e.2 = a := by
  obtain ⟨e, he, rfl⟩ := Option.map_eq_some_iff.mp h
  obtain ⟨hmem, hkey⟩ := List.mem_filter.mp (List.mem_of_getLast? he)
  exact ⟨e, hmem, of_decide_eq_true hkey, rfl⟩

/-- Optional values are related when their images are equal. -/
private theorem option_rel_iff {o o' : Option (PyData F)} {R : PyData F → PyData F → Prop}
    (h : ∀ a, o = some a → ∀ b, normaliseValue floatRepr a = normaliseValue floatRepr b ↔ R a b) :
    o.map (normaliseValue floatRepr) = o'.map (normaliseValue floatRepr) ↔ Option.Rel R o o' := by
  cases o with
  | none =>
    cases o' with
    | none => simp
    | some b => simp
  | some a =>
    cases o' with
    | none => simp
    | some b => rw [Option.map_some, Option.map_some, Option.some.injEq, h a rfl b, Option.rel_some_some]

private theorem forall₂_iff {l l' : List (PyData F)} {R : PyData F → PyData F → Prop}
    (h : ∀ a ∈ l, ∀ b, normaliseValue floatRepr a = normaliseValue floatRepr b ↔ R a b) :
    l.map (normaliseValue floatRepr) = l'.map (normaliseValue floatRepr) ↔
      List.Forall₂ R l l' := by
  induction l generalizing l' with
  | nil => rw [List.forall₂_nil_left_iff, List.map_nil, eq_comm, List.map_eq_nil_iff]
  | cons a l ih =>
    rw [List.forall_mem_cons] at h
    cases l' with
    | nil => simp
    | cons b l' => rw [List.map_cons, List.map_cons, List.cons.injEq, List.forall₂_cons, h.1, ih h.2]

theorem normaliseValue_eq_str {s : String} :
    normaliseValue floatRepr a = .str s ↔ a.textOf floatRepr = some s := by
  cases a <;> simp [normaliseValue, textOf]

theorem normaliseValue_eq_list {js : List Json} : normaliseValue floatRepr a = .list js ↔
    ∃ l, a.elements = some l ∧ l.map (normaliseValue floatRepr) = js := by
  cases a <;> simp [normaliseValue, elements, normaliseList_eq]

theorem alike_iff_of_textOf {s : String} (ha : a.textOf floatRepr = some s) :
    Alike floatRepr a b ↔ b.textOf floatRepr = some s := by
  constructor
  · intro h
    cases h with
    | text ha' hb => rwa [← ha, ha']
    | sequence ha' => cases a <;> simp [textOf, elements] at ha ha'
    | _ => cases ha
  · exact .text ha

theorem alike_iff_of_elements {l : List (PyData F)} (ha : a.elements = some l) :
    Alike floatRepr a b ↔
      ∃ l', b.elements = some l' ∧ List.Forall₂ (Alike floatRepr) l l' := by
  constructor
  · intro h
    cases h with
    | text ha' => cases a <;> simp [textOf, elements] at ha ha'
    | sequence ha' hb hrel =>
      rw [ha] at ha'
      cases ha'
      exact ⟨_, hb, hrel⟩
    | _ => cases ha
  · rintro ⟨l', hb, hrel⟩
    exact .sequence ha hb hrel

/-- What is written as neither a string nor a list is only alike to its own kind. -/
theorem Alike.cases_plain (h : Alike floatRepr a b) (htext : a.textOf floatRepr = none)
    (helements : a.elements = none) : (a = b ∧ ∀ l, a ≠ .dict l) ∨
      ∃ l l', a = .dict l ∧ b = .dict l' ∧
        ∀ k, Option.Rel (Alike floatRepr) (surviving l k) (surviving l' k) := by
  cases h with
  | text ha => rw [htext] at ha; cases ha
  | sequence ha => rw [helements] at ha; cases ha
  | dict h => exact Or.inr ⟨_, _, rfl, rfl, h⟩
  | _ => exact Or.inl ⟨rfl, fun l => by simp⟩

/-- Values are normalised alike exactly when they are alike. -/
theorem normaliseValue_eq_iff (a b : PyData F) :
    normaliseValue floatRepr a = normaliseValue floatRepr b ↔ Alike floatRepr a b := by
  induction a using induct generalizing b with
  | null =>
    constructor
    · intro h
      cases b <;> simp only [normaliseValue, reduceCtorEq] at h
      exact .null
    · intro h
      obtain ⟨rfl, -⟩ | ⟨l, l', hl, -⟩ := h.cases_plain rfl rfl
      · rfl
      · cases hl
  | bool b' =>
    constructor
    · intro h
      cases b <;> simp only [normaliseValue, reduceCtorEq, Json.bool.injEq] at h
      rw [h]
      exact .bool _
    · intro h
      obtain ⟨rfl, -⟩ | ⟨l, l', hl, -⟩ := h.cases_plain rfl rfl
      · rfl
      · cases hl
  | int n =>
    constructor
    · intro h
      cases b <;> simp only [normaliseValue, reduceCtorEq, Json.int.injEq] at h
      rw [h]
      exact .int _
    · intro h
      obtain ⟨rfl, -⟩ | ⟨l, l', hl, -⟩ := h.cases_plain rfl rfl
      · rfl
      · cases hl
  | float x =>
    rw [alike_iff_of_textOf rfl, ← normaliseValue_eq_str, normaliseValue, eq_comm]
  | str s => rw [alike_iff_of_textOf rfl, ← normaliseValue_eq_str, normaliseValue, eq_comm]
  | list l ih =>
    rw [alike_iff_of_elements rfl, normaliseValue, eq_comm, normaliseValue_eq_list]
    refine exists_congr fun l' => and_congr_right fun _ => ?_
    rw [normaliseList_eq, eq_comm]
    exact forall₂_iff ih
  | tuple l ih =>
    rw [alike_iff_of_elements rfl, normaliseValue, eq_comm, normaliseValue_eq_list]
    refine exists_congr fun l' => and_congr_right fun _ => ?_
    rw [normaliseList_eq, eq_comm]
    exact forall₂_iff ih
  | dict l ih =>
    have hrel : ∀ l' : List (DictKey × PyData F),
        (normalisedItems floatRepr l).entries = (normalisedItems floatRepr l').entries ↔
          ∀ k, Option.Rel (Alike floatRepr) (surviving l k) (surviving l' k) := by
      intro l'
      rw [normalisedItems_eq_iff]
      refine forall_congr' fun k => option_rel_iff fun a ha => ?_
      obtain ⟨e, he, -, rfl⟩ := mem_of_surviving ha
      exact ih e he
    constructor
    · intro h
      cases b with
      | dict l' =>
        rw [normaliseValue_dict, normaliseValue_dict, Json.dict.injEq, hrel] at h
        exact .dict h
      | _ => simp only [normaliseValue, reduceCtorEq] at h
    · intro h
      obtain ⟨-, hne⟩ | ⟨l₁, l₂, hl₁, rfl, h⟩ := h.cases_plain rfl rfl
      · exact absurd rfl (hne l)
      · cases hl₁
        rw [normaliseValue_dict, normaliseValue_dict, Json.dict.injEq, hrel]
        exact h

/-- The members of a normalised value are sorted at every level already. -/
theorem sortKeys_normaliseValue (a : PyData F) :
    (normaliseValue floatRepr a).sortKeys = normaliseValue floatRepr a := by
  have hlist : ∀ l : List (PyData F), (∀ a ∈ l, (normaliseValue floatRepr a).sortKeys =
      normaliseValue floatRepr a) → Json.sortKeysList (normaliseList floatRepr l) =
        normaliseList floatRepr l := by
    intro l hl
    rw [Json.sortKeysList_eq, normaliseList_eq, List.map_map]
    exact List.map_congr_left hl
  induction a using induct with
  | list l ih => rw [normaliseValue, Json.sortKeys, hlist l ih]
  | tuple l ih => rw [normaliseValue, Json.sortKeys, hlist l ih]
  | dict l ih =>
    have hmembers : (normalisedItems floatRepr l).entries.map (fun e => (e.1, e.2.sortKeys)) =
        (normalisedItems floatRepr l).entries := by
      conv_rhs => rw [← List.map_id (normalisedItems floatRepr l).entries]
      refine List.map_congr_left fun e he => ?_
      have hget := Dict.get?_eq_some.mpr he
      rw [get?_normalisedItems] at hget
      obtain ⟨a, ha, hvalue⟩ := Option.map_eq_some_iff.mp hget
      obtain ⟨e', he', -, rfl⟩ := mem_of_surviving ha
      rw [← hvalue, ih e' he', hvalue, id]
    rw [normaliseValue_dict, Json.sortKeys, Json.sortKeysMembers_eq, hmembers,
      normalisedItems_sorted]
  | _ => simp only [normaliseValue, Json.sortKeys]

theorem canonicalJsonBytes_dict (l : List (DictKey × PyData F)) :
    canonicalJsonBytes floatRepr (.dict l) =
      .ok (String.ofList (normaliseValue floatRepr (.dict l)).text) := by
  have hnormalise : normaliseForHashing floatRepr (.dict l) =
      .ok (normaliseValue floatRepr (.dict l)) := by
    unfold normaliseForHashing
    rw [normaliseValue_dict]
  rw [canonicalJsonBytes, hnormalise, bind_eq_ok_left, sortKeys_normaliseValue]

/-- Only mappings have a canonical form. -/
theorem canonicalJsonBytes_eq_ok {text : String}
    (h : canonicalJsonBytes floatRepr a = .ok text) : ∃ l, a = .dict l := by
  obtain ⟨normalised, hnormalised, -⟩ := bind_eq_ok.mp h
  unfold normaliseForHashing at hnormalised
  cases a with
  | dict l => exact ⟨l, rfl⟩
  | _ => simp [normaliseValue] at hnormalised

/-- Mappings have the same canonical form exactly when they are alike. -/
theorem canonicalJsonBytes_eq_iff : canonicalJsonBytes floatRepr (.dict l) =
    canonicalJsonBytes floatRepr (.dict l') ↔ Alike floatRepr (.dict l) (.dict l') := by
  rw [canonicalJsonBytes_dict, canonicalJsonBytes_dict, Except.ok.injEq, String.ofList_inj,
    Json.text_injective.eq_iff, normaliseValue_eq_iff]

end Normalise

/-! ### Canonical pairs -/

/-- The canonical forms of two values, if they have one, are equal exactly when the values
are equal up to the order of keys. -/
def Canonical (floatRepr : F → String) (a b : PyData F) : Prop :=
  ∀ text text', canonicalJsonBytes floatRepr a = .ok text →
    canonicalJsonBytes floatRepr b = .ok text' → (text = text' ↔ a.Same b)

/-- The canonical forms of two mappings tell whether they are equal exactly when these are
not alike without being equal, or equal without being alike. -/
theorem canonical_iff (floatRepr : F → String) (a b : PyData F) : Canonical floatRepr a b ↔
    ∀ l l', a = .dict l → b = .dict l' → (Alike floatRepr a b ↔ a.Same b) := by
  constructor
  · rintro h l l' rfl rfl
    rw [← canonicalJsonBytes_eq_iff, canonicalJsonBytes_dict, canonicalJsonBytes_dict,
      Except.ok.injEq]
    exact h _ _ (canonicalJsonBytes_dict l) (canonicalJsonBytes_dict l')
  · intro h text text' ha hb
    obtain ⟨l, rfl⟩ := canonicalJsonBytes_eq_ok ha
    obtain ⟨l', rfl⟩ := canonicalJsonBytes_eq_ok hb
    rw [← h l l' rfl rfl, ← canonicalJsonBytes_eq_iff, ha, hb, Except.ok.injEq]

/-! ### Values without ambiguity -/

/-- A value with string keys and no tuples, where no string is the printed form of a float. -/
inductive Unambiguous (floatRepr : F → String) : PyData F → Prop
  | null : Unambiguous floatRepr .null
  | bool (b : Bool) : Unambiguous floatRepr (.bool b)
  | int (n : ℤ) : Unambiguous floatRepr (.int n)
  | float (x : F) : Unambiguous floatRepr (.float x)
  | str {s : String} (h : ∀ x, floatRepr x ≠ s) : Unambiguous floatRepr (.str s)
  | list {l : List (PyData F)} (h : ∀ a ∈ l, Unambiguous floatRepr a) :
      Unambiguous floatRepr (.list l)
  | dict {l : List (DictKey × PyData F)} (hkeys : ∀ e ∈ l, ∃ s, e.1 = .str s)
      (hnodup : (l.map Prod.fst).Nodup) (h : ∀ e ∈ l, Unambiguous floatRepr e.2) :
      Unambiguous floatRepr (.dict l)

section Unambiguous

variable {floatRepr : F → String} {l l' : List (DictKey × PyData F)}

/-- Where keys are distinct strings, every entry survives. -/
theorem surviving_eq_lookup (hkeys : ∀ e ∈ l, ∃ s, e.1 = .str s)
    (hnodup : (l.map Prod.fst).Nodup) (s : String) : surviving l s = l.lookup (.str s) := by
  unfold surviving
  induction l with
  | nil => rfl
  | cons e l ih =>
    rw [List.forall_mem_cons] at hkeys
    rw [List.map_cons, List.nodup_cons] at hnodup
    obtain ⟨k, v⟩ := e
    obtain ⟨t, ht⟩ := hkeys.1
    change k = .str t at ht
    subst ht
    rw [List.lookup_cons]
    by_cases hs : t = s
    · subst hs
      have hnone : l.filter (fun e => decide (e.1.text = t)) = [] := by
        rw [List.filter_eq_nil_iff]
        intro e he heq
        obtain ⟨u, hu⟩ := hkeys.2 e he
        rw [hu, decide_eq_true_iff] at heq
        refine hnodup.1 (List.mem_map.mpr ⟨e, he, ?_⟩)
        rw [hu, ← heq, DictKey.text]
      rw [List.filter_cons_of_pos (by simp [DictKey.text]), hnone, beq_self_eq_true]
      rfl
    · have hne : (DictKey.str s == DictKey.str t) = false := by simpa using Ne.symm hs
      rw [List.filter_cons_of_neg (by simp [DictKey.text, hs]), ih hkeys.2 hnodup.2, hne]

theorem lookup_int (hkeys : ∀ e ∈ l, ∃ s, e.1 = .str s) (n : ℤ) : l.lookup (.int n) = none := by
  rw [List.lookup_eq_none_iff]
  intro e he
  obtain ⟨s, hs⟩ := hkeys e he
  simp [hs]

theorem mem_of_lookup {k : DictKey} {a : PyData F} (h : l.lookup k = some a) : (k, a) ∈ l := by
  obtain ⟨l₁, l₂, rfl, -⟩ := List.lookup_eq_some_iff.mp h
  simp

private theorem forall₂_congr {R S : PyData F → PyData F → Prop} {l l' : List (PyData F)}
    (h : ∀ a ∈ l, ∀ b ∈ l', R a b ↔ S a b) : List.Forall₂ R l l' ↔ List.Forall₂ S l l' := by
  induction l generalizing l' with
  | nil => rw [List.forall₂_nil_left_iff, List.forall₂_nil_left_iff]
  | cons a l ih =>
    cases l' with
    | nil => simp
    | cons b l' =>
      rw [List.forall₂_cons, List.forall₂_cons, h a List.mem_cons_self b List.mem_cons_self,
        ih fun a ha b hb => h a (List.mem_cons_of_mem _ ha) b (List.mem_cons_of_mem _ hb)]

private theorem option_rel_congr {R S : PyData F → PyData F → Prop} {o o' : Option (PyData F)}
    (h : ∀ a, o = some a → ∀ b, o' = some b → (R a b ↔ S a b)) :
    Option.Rel R o o' ↔ Option.Rel S o o' := by
  cases o <;> cases o' <;> simp [h]

/-- Unambiguous values are alike exactly when they are equal up to the order of keys. -/
theorem Unambiguous.alike_iff_same (hrepr : Function.Injective floatRepr) {a b : PyData F}
    (ha : Unambiguous floatRepr a) (hb : Unambiguous floatRepr b) :
    Alike floatRepr a b ↔ a.Same b := by
  induction a using induct generalizing b with
  | float x =>
    rw [alike_iff_of_textOf rfl]
    constructor
    · intro h
      cases hb with
      | float y =>
        rw [hrepr (Option.some.inj h)]
        exact .float x
      | str hs => exact absurd (Option.some.inj h).symm (hs x)
      | _ => cases h
    · intro h
      cases h
      rfl
  | str s =>
    cases ha with
    | str hs =>
    rw [alike_iff_of_textOf rfl]
    constructor
    · intro h
      cases hb with
      | float y => exact absurd (Option.some.inj h) (hs y)
      | str _ =>
        cases h
        exact .str _
      | _ => cases h
    · intro h
      cases h
      rfl
  | list l ih =>
    cases ha with
    | list ha =>
    rw [alike_iff_of_elements rfl]
    constructor
    · rintro ⟨l', hl', hrel⟩
      cases hb with
      | list hb =>
        cases hl'
        exact .list ((forall₂_congr fun a hal b hbl => ih a hal (ha a hal) (hb b hbl)).mp hrel)
      | _ => cases hl'
    · intro h
      cases h with
      | list h =>
      cases hb with
      | list hb =>
      exact ⟨_, rfl, (forall₂_congr fun a hal b hbl => ih a hal (ha a hal) (hb b hbl)).mpr h⟩
  | tuple l => cases ha
  | dict l ih =>
    cases ha with
    | dict hkeys hnodup ha =>
    have hrel : ∀ l' : List (DictKey × PyData F), Unambiguous floatRepr (.dict l') →
        ((∀ k, Option.Rel (Alike floatRepr) (surviving l k) (surviving l' k)) ↔
          ∀ k, Option.Rel Same (l.lookup k) (l'.lookup k)) := by
      intro l' hb
      cases hb with
      | dict hkeys' hnodup' hb =>
      have hiff : ∀ k, Option.Rel (Alike floatRepr) (l.lookup k) (l'.lookup k) ↔
          Option.Rel Same (l.lookup k) (l'.lookup k) := by
        refine fun k => option_rel_congr fun a hak b hbk => ?_
        have hal := mem_of_lookup hak
        exact ih _ hal (ha _ hal) (hb _ (mem_of_lookup hbk))
      constructor
      · intro h k
        rw [← hiff]
        cases k with
        | int n =>
          rw [lookup_int hkeys, lookup_int hkeys']
          exact .none
        | str s =>
          rw [← surviving_eq_lookup hkeys hnodup, ← surviving_eq_lookup hkeys' hnodup']
          exact h s
      · intro h s
        rw [surviving_eq_lookup hkeys hnodup, surviving_eq_lookup hkeys' hnodup', hiff]
        exact h _
    constructor
    · intro h
      obtain ⟨-, hne⟩ | ⟨l₁, l', hl₁, rfl, h⟩ := h.cases_plain rfl rfl
      · exact absurd rfl (hne l)
      · cases hl₁
        exact .dict ((hrel l' hb).mp h)
    · intro h
      cases h with
      | dict h => exact .dict ((hrel _ hb).mpr h)
  | _ =>
    constructor
    · intro h
      obtain ⟨rfl, -⟩ | ⟨l, l', hl, -⟩ := h.cases_plain rfl rfl
      · constructor
      · cases hl
    · intro h
      cases h
      constructor

/-- Unambiguous mappings have a canonical form that tells whether they are equal. -/
theorem Unambiguous.canonical (hrepr : Function.Injective floatRepr) {a b : PyData F}
    (ha : Unambiguous floatRepr a) (hb : Unambiguous floatRepr b) : Canonical floatRepr a b :=
  (canonical_iff floatRepr a b).mpr fun _ _ _ _ => ha.alike_iff_same hrepr hb

end Unambiguous

/-- A printed form of rationals. -/
def sampleRepr (q : ℚ) : String :=
  if q = 1 / 2 then "0.5" else toString q.num ++ "/" ++ toString q.den

/-- The float 0.5 and the string "0.5" have one canonical form. -/
theorem half_collides : ∃ text,
    canonicalJsonBytes sampleRepr (.dict [(.str "x", .float (1 / 2))]) = .ok text ∧
    canonicalJsonBytes sampleRepr (.dict [(.str "x", .str "0.5")]) = .ok text ∧
    ¬Canonical sampleRepr (.dict [(.str "x", .float (1 / 2))]) (.dict [(.str "x", .str "0.5")]) := by
  have hequal : canonicalJsonBytes sampleRepr (.dict [(.str "x", .float (1 / 2))]) =
      canonicalJsonBytes sampleRepr (.dict [(.str "x", .str "0.5")]) := by
    rw [canonicalJsonBytes_eq_iff]
    refine .dict fun k => ?_
    by_cases hk : "x" = k
    · simp only [surviving, DictKey.text, hk, List.filter_cons, decide_true, if_true,
        List.filter_nil, List.getLast?_singleton, Option.map_some, Option.rel_some_some]
      exact .text rfl (congrArg some (if_pos rfl).symm)
    · simp [surviving, DictKey.text, hk]
  have hok : canonicalJsonBytes sampleRepr (.dict [(.str "x", .str "0.5")]) = .ok _ :=
    canonicalJsonBytes_dict _
  refine ⟨_, hequal.trans hok, hok, fun h => ?_⟩
  have hsame := (h _ _ (hequal.trans hok) hok).mp rfl
  cases hsame with
  | dict h =>
    have hx := h (.str "x")
    simp only [List.lookup_cons_self, Option.rel_some_some] at hx
    cases hx

end PyData

end NpuArc
