import NpuArc.Contracts.Canonical
import NpuArc.Library.JsonReader

/-!
# Reading canonical JSON back

A canonical text holds no fractions, so a float comes back as the string of its printed form,
a tuple comes back as a list, and an integer key as the string of its digits. Everything else
comes back as it was, up to the order of keys.
-/

namespace NpuArc

namespace PyData

variable {F : Type}

/-! ### Mappings with string keys -/

/-- A mapping of named fields. -/
def record (l : List (String × PyData F)) : PyData F := .dict (l.map fun e => (.str e.1, e.2))

def stringsData (l : List String) : PyData F := .list (l.map .str)

def optionalData (s : Option String) : PyData F := (s.map .str).getD .null

/-- A mapping with string keys. -/
def ofMembers (d : Dict String (PyData F)) : PyData F :=
  .dict (d.entries.map fun e => (.str e.1, e.2))

/-! ### Loading -/

/-- How the JSON library of Python builds values. Of the members of an object with one key it
keeps the last. -/
def hooks (float : String → F) : Json.Hooks (PyData F) where
  null := .null
  bool := .bool
  int := .int
  float s := .float (float s)
  str := .str
  list := .list
  dict l := ofMembers (Dict.ofList l)

/-- Parse a JSON text. -/
def jsonLoads (float : String → F) (text : String) : Except Error (PyData F) :=
  match Json.loads (hooks float) text.toList with
  | some a => .ok a
  | none => .error (.valueError "JSONDecodeError")

/-- What comes back of a value that is written in canonical form. -/
def readBack (float : String → F) (floatRepr : F → String) (a : PyData F) : PyData F :=
  (hooks float).build (normaliseValue floatRepr a)

/-- A value whose mappings have each key once, at every level. -/
inductive Proper : PyData F → Prop
  | null : Proper .null
  | bool (b : Bool) : Proper (.bool b)
  | int (n : ℤ) : Proper (.int n)
  | float (x : F) : Proper (.float x)
  | str (s : String) : Proper (.str s)
  | list {l : List (PyData F)} (h : ∀ a ∈ l, Proper a) : Proper (.list l)
  | tuple {l : List (PyData F)} (h : ∀ a ∈ l, Proper a) : Proper (.tuple l)
  | dict {l : List (DictKey × PyData F)} (hnodup : (l.map Prod.fst).Nodup)
      (h : ∀ e ∈ l, Proper (Prod.snd e)) : Proper (.dict l)

/-- A value without floats, tuples and integer keys, at every level. -/
inductive Plain : PyData F → Prop
  | null : Plain .null
  | bool (b : Bool) : Plain (.bool b)
  | int (n : ℤ) : Plain (.int n)
  | str (s : String) : Plain (.str s)
  | list {l : List (PyData F)} (h : ∀ a ∈ l, Plain a) : Plain (.list l)
  | dict {l : List (DictKey × PyData F)} (hkeys : ∀ e ∈ l, ∃ s, e.1 = .str s)
      (h : ∀ e ∈ l, Plain (Prod.snd e)) : Plain (.dict l)

/-! ### What comes back -/

section ReadBack

variable {floatRepr : F → String} {float : String → F} {l : List (DictKey × PyData F)}

theorem buildList_eq (h : Json.Hooks (PyData F)) (l : List Json) :
    h.buildList l = l.map h.build := by
  induction l with
  | nil => rw [Json.Hooks.buildList, List.map_nil]
  | cons a l ih => rw [Json.Hooks.buildList, List.map_cons, ih]

theorem buildMembers_eq (h : Json.Hooks (PyData F)) (l : List (String × Json)) :
    h.buildMembers l = l.map fun e => (e.1, h.build e.2) := by
  induction l with
  | nil => rw [Json.Hooks.buildMembers, List.map_nil]
  | cons e l ih => rw [Json.Hooks.buildMembers, List.map_cons, ih]

/-- The canonical text of a value is parsed as what comes back of it. -/
theorem jsonLoads_canonicalJsonBytes (float : String → F) {a : PyData F} {text : String}
    (h : canonicalJsonBytes floatRepr a = .ok text) :
    jsonLoads float text = .ok (readBack float floatRepr a) := by
  obtain ⟨l, rfl⟩ := canonicalJsonBytes_eq_ok h
  rw [canonicalJsonBytes_dict] at h
  cases h
  rw [jsonLoads, String.toList_ofList, Json.loads_text]
  rfl

@[simp] theorem readBack_null : readBack float floatRepr .null = .null := by
  rw [readBack, normaliseValue, Json.Hooks.build, hooks]

@[simp] theorem readBack_int (n : ℤ) : readBack float floatRepr (.int n) = .int n := by
  rw [readBack, normaliseValue, Json.Hooks.build, hooks]

@[simp] theorem readBack_str (s : String) : readBack float floatRepr (.str s) = .str s := by
  rw [readBack, normaliseValue, Json.Hooks.build, hooks]

theorem readBack_list (l : List (PyData F)) : readBack float floatRepr (.list l) =
    .list (l.map (readBack float floatRepr)) := by
  rw [readBack, normaliseValue, Json.Hooks.build, buildList_eq, normaliseList_eq, List.map_map]
  rfl

theorem readBack_tuple (l : List (PyData F)) : readBack float floatRepr (.tuple l) =
    .list (l.map (readBack float floatRepr)) := by
  rw [readBack, normaliseValue, Json.Hooks.build, buildList_eq, normaliseList_eq, List.map_map]
  rfl

/-- The members of a mapping that comes back. -/
def membersBack (float : String → F) (floatRepr : F → String)
    (l : List (DictKey × PyData F)) : Dict String (PyData F) :=
  (normalisedItems floatRepr l).mapValues fun _ => (hooks float).build

theorem readBack_dict (l : List (DictKey × PyData F)) :
    readBack float floatRepr (.dict l) = ofMembers (membersBack float floatRepr l) := by
  have hnodup : (((normalisedItems floatRepr l).entries.map
      fun e => (e.1, (hooks float).build e.2)).map Prod.fst).Nodup := by
    rw [List.map_map]
    exact (normalisedItems floatRepr l).nodup
  have hentries : (Dict.ofList ((normalisedItems floatRepr l).entries.map
      fun e => (e.1, (hooks float).build e.2))).entries =
        (membersBack float floatRepr l).entries := Dict.entries_ofList hnodup
  rw [readBack, normaliseValue_dict, Json.Hooks.build, buildMembers_eq]
  change ofMembers (Dict.ofList _) = _
  rw [ofMembers, hentries, ofMembers]

/-- Under a key comes back what survives under it. -/
theorem get?_membersBack (l : List (DictKey × PyData F)) (k : String) :
    (membersBack float floatRepr l).get? k =
      (surviving l k).map (readBack float floatRepr) := by
  rw [membersBack, Dict.get?_mapValues, get?_normalisedItems, Option.map_map]
  rfl

theorem lookup_record (l : List (String × PyData F)) (k : String) :
    (l.map fun e => (DictKey.str e.1, e.2)).lookup (.str k) = l.lookup k := by
  induction l with
  | nil => rfl
  | cons e l ih =>
    have hbeq : (DictKey.str k == DictKey.str e.1) = (k == e.1) := by
      by_cases hk : k = e.1 <;> simp [hk]
    rw [List.map_cons, List.lookup_cons, List.lookup_cons, ih, hbeq]

/-- Under the name of a field comes back what comes back of the field. -/
theorem get?_membersBack_record (float : String → F) (floatRepr : F → String)
    {l : List (String × PyData F)} (hnodup : (l.map Prod.fst).Nodup) (k : String) :
    (membersBack float floatRepr (l.map fun e => (.str e.1, e.2))).get? k =
      (l.lookup k).map (readBack float floatRepr) := by
  have hkeys : ∀ e ∈ l.map fun e : String × PyData F => (DictKey.str e.1, e.2),
      ∃ s, e.1 = .str s := by
    intro e he
    obtain ⟨e', -, rfl⟩ := List.mem_map.mp he
    exact ⟨e'.1, rfl⟩
  have hdistinct : ((l.map fun e => (DictKey.str e.1, e.2)).map Prod.fst).Nodup := by
    have hinj := hnodup.map (f := DictKey.str) fun s t h => DictKey.str.inj h
    rw [List.map_map] at hinj ⊢
    exact hinj
  rw [get?_membersBack, surviving_eq_lookup hkeys hdistinct, lookup_record]

theorem lookup_str (d : Dict String (PyData F)) (s : String) :
    (d.entries.map fun e => (DictKey.str e.1, e.2)).lookup (.str s) = d.get? s := by
  unfold Dict.get?
  induction d.entries with
  | nil => rfl
  | cons e l ih =>
    rw [List.map_cons, List.lookup_cons, List.find?_cons, ih]
    by_cases hs : e.1 = s
    · simp [hs]
    · have hne : (DictKey.str s == DictKey.str e.1) = false := by simpa using Ne.symm hs
      rw [hne, decide_eq_false hs]

theorem lookup_int_eq_none (d : Dict String (PyData F)) (n : ℤ) :
    (d.entries.map fun e => (DictKey.str e.1, e.2)).lookup (.int n) = none := by
  refine lookup_int (fun e he => ?_) n
  obtain ⟨e', -, rfl⟩ := List.mem_map.mp he
  exact ⟨e'.1, rfl⟩

/-- What survives of a mapping with string keys is what it has under a key. -/
theorem surviving_ofMembers (d : Dict String (PyData F)) (k : String) :
    surviving (d.entries.map fun e => (DictKey.str e.1, e.2)) k = d.get? k := by
  have hkeys : ∀ e ∈ d.entries.map fun e => (DictKey.str e.1, e.2), ∃ s, e.1 = .str s := by
    intro e he
    obtain ⟨e', -, rfl⟩ := List.mem_map.mp he
    exact ⟨e'.1, rfl⟩
  have hnodup : ((d.entries.map fun e => (DictKey.str e.1, e.2)).map Prod.fst).Nodup := by
    have hinj := d.nodup.map (f := DictKey.str) fun s t h => DictKey.str.inj h
    rw [List.map_map] at hinj ⊢
    exact hinj
  rw [surviving_eq_lookup hkeys hnodup, lookup_str]

/-- What comes back of a value is normalised as the value is. -/
theorem normaliseValue_readBack (float : String → F) (floatRepr : F → String) (a : PyData F) :
    normaliseValue floatRepr (readBack float floatRepr a) = normaliseValue floatRepr a := by
  induction a using induct with
  | null => rw [readBack_null]
  | bool b => rw [readBack, normaliseValue, Json.Hooks.build, hooks, normaliseValue]
  | int n => rw [readBack_int]
  | float x =>
    rw [readBack, normaliseValue, Json.Hooks.build, hooks, normaliseValue]
  | str s => rw [readBack_str]
  | list l ih =>
    rw [readBack_list, normaliseValue, normaliseValue, normaliseList_eq, normaliseList_eq,
      List.map_map]
    exact congrArg Json.list (List.map_congr_left ih)
  | tuple l ih =>
    rw [readBack_tuple, normaliseValue, normaliseValue, normaliseList_eq, normaliseList_eq,
      List.map_map]
    exact congrArg Json.list (List.map_congr_left ih)
  | dict l ih =>
    rw [readBack_dict, ofMembers, normaliseValue_dict, normaliseValue_dict, Json.dict.injEq,
      normalisedItems_eq_iff]
    intro k
    rw [surviving_ofMembers, get?_membersBack, Option.map_map]
    cases hk : surviving l k with
    | none => rfl
    | some a =>
      obtain ⟨e, he, -, rfl⟩ := mem_of_surviving hk
      exact congrArg some (ih e he)

/-- What comes back of a mapping is written as the mapping is. -/
theorem canonicalJsonBytes_readBack (float : String → F) {floatRepr : F → String} {a : PyData F}
    {text : String} (h : canonicalJsonBytes floatRepr a = .ok text) :
    canonicalJsonBytes floatRepr (readBack float floatRepr a) = .ok text := by
  obtain ⟨l, rfl⟩ := canonicalJsonBytes_eq_ok h
  have hnormal := normaliseValue_readBack float floatRepr (.dict l)
  rw [readBack_dict, ofMembers] at hnormal ⊢
  rw [canonicalJsonBytes_dict] at h ⊢
  rw [hnormal]
  exact h

/-- An entry is looked up under its key, if no other entry has it. -/
theorem lookup_of_mem (hnodup : (l.map Prod.fst).Nodup) {e : DictKey × PyData F} (he : e ∈ l) :
    l.lookup e.1 = some e.2 := by
  induction l with
  | nil => exact absurd he List.not_mem_nil
  | cons f l ih =>
    rw [List.map_cons, List.nodup_cons] at hnodup
    rw [List.lookup_cons]
    rcases List.mem_cons.mp he with rfl | he
    · rw [beq_self_eq_true]
    · have hne : (e.1 == f.1) = false := by
        refine beq_eq_false_iff_ne.mpr fun heq => hnodup.1 ?_
        rw [← heq]
        exact List.mem_map_of_mem he
      rw [hne, ih hnodup.2 he]

/-- A proper value without floats, tuples and integer keys comes back as it was, up to the order
of keys, and no other value does. -/
theorem same_readBack_iff (float : String → F) (floatRepr : F → String) {a : PyData F}
    (ha : a.Proper) :
    (readBack float floatRepr a).Same a ↔ a.Plain := by
  induction a using induct with
  | null => exact iff_of_true .null .null
  | bool b => exact iff_of_true (.bool b) (.bool b)
  | int n => exact iff_of_true (.int n) (.int n)
  | str s => exact iff_of_true (.str s) (.str s)
  | float x =>
    refine iff_of_false (fun h => ?_) fun h => by cases h
    rw [readBack, normaliseValue, Json.Hooks.build] at h
    cases h
  | tuple l _ =>
    refine iff_of_false (fun h => ?_) fun h => by cases h
    rw [readBack_tuple] at h
    cases h
  | list l ih =>
    cases ha with
    | list ha =>
    rw [readBack_list]
    constructor
    · intro h
      cases h with
      | list h =>
      rw [List.forall₂_map_left_iff, List.forall₂_same] at h
      exact .list fun a hal => (ih a hal (ha a hal)).mp (h a hal)
    · intro h
      cases h with
      | list h =>
      refine .list (List.forall₂_map_left_iff.mpr (List.forall₂_same.mpr fun a hal => ?_))
      exact (ih a hal (ha a hal)).mpr (h a hal)
  | dict l ih =>
    cases ha with
    | dict hnodup ha =>
    have hlookup : ∀ e ∈ l, l.lookup e.1 = some e.2 := fun e he =>
      lookup_of_mem hnodup he
    rw [readBack_dict]
    constructor
    · intro h
      cases h with
      | dict h =>
      -- A key that is looked up in what comes back is a string.
      have hkeys : ∀ e ∈ l, ∃ s, e.1 = .str s := by
        intro e he
        cases hkey : e.1 with
        | str s => exact ⟨s, rfl⟩
        | int n =>
          have hrel := h (.int n)
          rw [lookup_int_eq_none, ← hkey, hlookup e he] at hrel
          cases hrel
      refine .dict hkeys fun e he => (ih e he (ha e he)).mp ?_
      obtain ⟨s, hs⟩ := hkeys e he
      have hrel := h (.str s)
      rw [lookup_str, get?_membersBack, surviving_eq_lookup hkeys hnodup, ← hs, hlookup e he,
        Option.map_some, Option.rel_some_some] at hrel
      exact hrel
    · intro h
      cases h with
      | dict hkeys h =>
      refine .dict fun k => ?_
      cases k with
      | int n =>
        rw [lookup_int_eq_none, lookup_int hkeys]
        exact .none
      | str s =>
        rw [lookup_str, get?_membersBack, surviving_eq_lookup hkeys hnodup]
        cases hs : l.lookup (.str s) with
        | none => exact .none
        | some a =>
          have hmem := mem_of_lookup hs
          exact .some ((ih _ hmem (ha _ hmem)).mpr (h _ hmem))

end ReadBack

end PyData

end NpuArc
