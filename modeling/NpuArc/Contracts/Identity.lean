import NpuArc.Dse.Models
import NpuArc.Library.Json
import NpuArc.Library.StableSort

/-!
# Stable design-point identities

A configuration is normalised to a JSON value, written as a canonical text, and hashed.
Floats become their printed forms and the keys of a mapping are sorted, so two mappings
have the same digest exactly when they have the same normalised values under every key.
-/

namespace NpuArc

/-- A configuration value: a scalar, a list, or a mapping. -/
inductive Tree
  | leaf (s : Dse.Scalar)
  | list (l : List Tree)
  | dict (l : List (String × Tree))

/-- The functions of the Python library behind a digest: the printed form of a float, and
the SHA-256 digest of a text in hexadecimal. -/
structure Hashing where
  floatRepr : ℚ → String
  sha256Hex : String → String

namespace Hashing

variable (py : Hashing)

/-- The normal form of a scalar. -/
def normaliseScalar : Dse.Scalar → Json
  | .null => .null
  | .bool b => .bool b
  | .int n => .int n
  | .float q => .str (py.floatRepr q)
  | .str s => .str s

mutual

/-- Recursively normalise a value for deterministic serialization. -/
def normaliseValue : Tree → Json
  | .leaf s => py.normaliseScalar s
  | .list l => .list (normaliseList l)
  | .dict l => .dict ((normaliseMembers l).insertionSort fun a b => a.1 ≤ b.1)

def normaliseList : List Tree → List Json
  | [] => []
  | t :: l => normaliseValue t :: normaliseList l

def normaliseMembers : List (String × Tree) → List (String × Json)
  | [] => []
  | e :: l => (e.1, normaliseValue e.2) :: normaliseMembers l

end

/-- The digest of the canonical text of a mapping. -/
def digestSha256 (obj : Dict String Tree) : String :=
  py.sha256Hex (String.ofList (py.normaliseValue (.dict obj.entries)).text)

variable {py}

theorem normaliseMembers_eq (l : List (String × Tree)) :
    py.normaliseMembers l = l.map fun e => (e.1, py.normaliseValue e.2) := by
  induction l with
  | nil => rw [normaliseMembers, List.map_nil]
  | cons e l ih => rw [normaliseMembers, List.map_cons, ih]

theorem normaliseValue_dict (d : Dict String Tree) : py.normaliseValue (.dict d.entries) =
    .dict ((d.mapValues fun _ t => py.normaliseValue t).entries.insertionSort
      fun a b => a.1 ≤ b.1) := by
  rw [normaliseValue, normaliseMembers_eq]
  rfl

/-- Sorting by key forgets the order of a dictionary and nothing else. -/
theorem sortedEntries_eq_iff {V : Type} {d d' : Dict String V} :
    (d.entries.insertionSort fun a b => a.1 ≤ b.1) =
        d'.entries.insertionSort (fun a b => a.1 ≤ b.1) ↔ ∀ k, d.get? k = d'.get? k := by
  rw [← Dict.entries_perm_iff]
  constructor
  · intro h
    have hperm := List.perm_insertionSort (fun a b : String × V => a.1 ≤ b.1)
    exact (hperm d.entries).symm.trans (h ▸ hperm d'.entries)
  · intro hperm
    have hsort := TiedSort.insertionSort_append_eq (l := [])
      (r := fun a b : String × V => a.1 ≤ b.1) (fun _ _ => String.le_total _ _)
      (fun _ _ _ => String.le_trans) hperm fun a ha b hb htied =>
        List.inj_on_of_nodup_map d.nodup ha hb (String.le_antisymm htied.1 htied.2)
    rw [List.append_nil, List.append_nil] at hsort
    exact hsort

/-- Mappings are normalised alike when they have the same normalised values. -/
theorem normaliseValue_dict_eq_iff {d d' : Dict String Tree} :
    py.normaliseValue (.dict d.entries) = py.normaliseValue (.dict d'.entries) ↔
      ∀ k, (d.get? k).map py.normaliseValue = (d'.get? k).map py.normaliseValue := by
  rw [normaliseValue_dict, normaliseValue_dict, Json.dict.injEq, sortedEntries_eq_iff]
  simp only [Dict.get?_mapValues]

/-- Digests are equal when the normalised values are, if the hash has no collisions. -/
theorem digestSha256_eq_iff (hsha : Function.Injective py.sha256Hex) {d d' : Dict String Tree} :
    py.digestSha256 d = py.digestSha256 d' ↔
      ∀ k, (d.get? k).map py.normaliseValue = (d'.get? k).map py.normaliseValue := by
  rw [← normaliseValue_dict_eq_iff]
  constructor
  · intro h
    exact Json.text_injective (String.ofList_inj.mp (hsha h))
  · intro h
    unfold digestSha256
    rw [h]

end Hashing

end NpuArc
