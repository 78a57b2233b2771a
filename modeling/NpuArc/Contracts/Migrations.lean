import NpuArc.Contracts.Errors
import NpuArc.Library.DictSum

/-!
# Migration of configurations

A legacy configuration is migrated to the second version of the schema, and a configuration of
this version is projected back. What cannot be expressed is reported. A configuration is a
dictionary of sections and other values; only the keys of the sections are looked at, and the
values below them are of any type, on which Python's comparison is equality.
-/

namespace NpuArc

namespace Migrations

/-- Structured report of fields that cannot be expressed in the target schema. -/
structure LossReport where
  droppedKeys : List String := []
  warnings : List String := []

/-- A value of a configuration: a section, or anything else. -/
inductive ConfigValue (V : Type)
  | mapping (d : Dict String V)
  | other (v : V)

/-- A configuration. -/
abbrev ConfigDict (V : Type) := Dict String (ConfigValue V)

/-- What the functions use of the values: the constants, the printed form of a value, and its
conversion to a float. -/
structure Python (V : Type) where
  none : V
  ofStr : String → V
  repr : V → String
  float : V → Except Error V

section Model

variable {V : Type} [DecidableEq V] (py : Python V)

/-- The type of an engine section, if it is a section and has one. -/
def ConfigValue.engineType : ConfigValue V → V
  | .mapping d => (d.get? "type").getD py.none
  | .other _ => py.none

/-- Merge the two names of the engine section. -/
def migrateEngine (data : ConfigDict V) : Except Error (ConfigDict V × LossReport) :=
  match data.get? "mac_engine", data.get? "mxu" with
  | some mac, some mxu =>
    let macType := mac.engineType py
    let mxuType := mxu.engineType py
    if macType ≠ mxuType then
      .error (.configError ("Conflicting 'mac_engine' and 'mxu' keys: " ++
        s!"mac_engine.type={py.repr macType}, mxu.type={py.repr mxuType}. " ++
        "Remove one or ensure they are consistent.") "mac_engine|mxu")
    else
      .ok (data.erase "mxu", { warnings :=
        ["Both 'mac_engine' and 'mxu' present and consistent; using 'mac_engine'. " ++
          "Remove 'mxu' to silence this warning."] })
  | none, some mxu =>
    .ok ((data.erase "mxu").insert "mac_engine" mxu,
      { warnings := ["Renamed legacy 'mxu' → 'mac_engine'."] })
  | _, none => .ok (data, {})

/-- Drop the bandwidth that is derived in the second version. -/
def migrateMemory (data : ConfigDict V) (loss : LossReport) : ConfigDict V × LossReport :=
  match data.get? "memory" with
  | some (.mapping mem) =>
    if mem.contains "bandwidth_bytes_per_cycle" then
      (data.insert "memory" (.mapping (mem.erase "bandwidth_bytes_per_cycle")),
        { droppedKeys := loss.droppedKeys ++ ["memory.bandwidth_bytes_per_cycle"]
          warnings := loss.warnings ++ ["Dropped 'memory.bandwidth_bytes_per_cycle' — " ++
            "use bandwidth_gbps + frequency_mhz in v2."] })
    else (data, loss)
  | _ => (data, loss)

/-- Migrate a legacy configuration to the second version. -/
def migrateV1ToV2 (config : ConfigDict V) : Except Error (ConfigDict V × LossReport) := do
  let data := config.insert "version" (.other (py.ofStr "2"))
  let (data, loss) ← migrateEngine py data
  return migrateMemory data loss

/-- Drop the provenance of a section. -/
def dropProvenance (state : ConfigDict V × LossReport) (key : String) :
    ConfigDict V × LossReport :=
  match state.1.get? key with
  | some (.mapping d) =>
    if d.contains "provenance" then
      (state.1.insert key (.mapping (d.erase "provenance")),
        { state.2 with droppedKeys := state.2.droppedKeys ++ [key ++ ".provenance"] })
    else state
  | _ => state

/-- Add the bandwidth back that legacy readers expect. -/
def projectBandwidth (data : ConfigDict V) : Except Error (ConfigDict V) :=
  match data.get? "memory" with
  | some (.mapping mem) =>
    match mem.get? "bandwidth_gbps" with
    | some bwGbps =>
      if bwGbps = py.none then .ok data
      else do
        let bw ← py.float bwGbps
        return data.insert "memory" (.mapping (mem.insert "bandwidth_bytes_per_cycle" bw))
    | none => .ok data
  | _ => .ok data

/-- Give the engine section its legacy name. -/
def projectEngine (data : ConfigDict V) : ConfigDict V :=
  match data.get? "mac_engine" with
  | some mac => (data.erase "mac_engine").insert "mxu" mac
  | none => data

/-- Project a configuration of the second version back to the legacy shape. -/
def projectV2ToLegacy (config : ConfigDict V) : Except Error (ConfigDict V × LossReport) := do
  let data := projectEngine (config.erase "version")
  let state := dropProvenance (data, {}) "mxu"
  let data ← projectBandwidth py state.1
  let state := dropProvenance (data, state.2) "memory"
  return state.1.keys.foldl dropProvenance state

end Model

/-! ### What each step leaves -/

section Steps

variable {V : Type}

/-- Whether a value is a section with a provenance. -/
def ConfigValue.hasProvenance : ConfigValue V → Bool
  | .mapping d => d.contains "provenance"
  | .other _ => false

/-- A value without its provenance. -/
def ConfigValue.withoutProvenance : ConfigValue V → ConfigValue V
  | .mapping d => .mapping (d.erase "provenance")
  | .other v => .other v

/-- Whether a value is a section with the derived bandwidth. -/
def ConfigValue.hasBandwidth : ConfigValue V → Bool
  | .mapping d => d.contains "bandwidth_bytes_per_cycle"
  | .other _ => false

/-- A value without the derived bandwidth. -/
def ConfigValue.withoutBandwidth : ConfigValue V → ConfigValue V
  | .mapping d => .mapping (d.erase "bandwidth_bytes_per_cycle")
  | .other v => .other v

theorem withoutProvenance_of_not {v : ConfigValue V} (h : v.hasProvenance = false) :
    v.withoutProvenance = v := by
  cases v with
  | mapping d =>
    exact congrArg ConfigValue.mapping (Dict.erase_of_get?_eq_none (Dict.contains_eq_false.mp h))
  | other v => rfl

@[simp] theorem hasProvenance_withoutProvenance (v : ConfigValue V) :
    v.withoutProvenance.hasProvenance = false := by
  cases v with
  | mapping d =>
    refine Dict.contains_eq_false.mpr ?_
    rw [Dict.get?_erase, if_pos rfl]
  | other v => rfl

@[simp] theorem withoutProvenance_idem (v : ConfigValue V) :
    v.withoutProvenance.withoutProvenance = v.withoutProvenance :=
  withoutProvenance_of_not (hasProvenance_withoutProvenance v)

theorem withoutBandwidth_withoutProvenance (v : ConfigValue V) :
    v.withoutProvenance.withoutBandwidth = v.withoutBandwidth.withoutProvenance := by
  cases v with
  | mapping d => exact congrArg ConfigValue.mapping (Dict.erase_comm d _ _)
  | other v => rfl

theorem withoutBandwidth_idem (v : ConfigValue V) :
    v.withoutBandwidth.withoutBandwidth = v.withoutBandwidth := by
  cases v with
  | mapping d =>
    refine congrArg ConfigValue.mapping (Dict.erase_of_get?_eq_none ?_)
    rw [Dict.get?_erase, if_pos rfl]
  | other v => rfl

/-- The path that a dropped provenance is reported under. -/
def provenancePath (key : String) : String := key ++ ".provenance"

theorem get?_dropProvenance (state : ConfigDict V × LossReport) (key k : String) :
    (dropProvenance state key).1.get? k =
      if k = key then (state.1.get? key).map (·.withoutProvenance) else state.1.get? k := by
  unfold dropProvenance
  split
  · next d hget =>
    by_cases hprov : d.contains "provenance" = true
    · rw [if_pos hprov, Dict.get?_insert, hget]
      rfl
    · rw [if_neg hprov, hget, Option.map_some,
        withoutProvenance_of_not (v := .mapping d) (Bool.not_eq_true _ ▸ hprov)]
      split_ifs with hk
      · rw [hk, hget]
      · rfl
  · next hother =>
    split_ifs with hk
    · rw [hk]
      cases hget : state.1.get? key with
      | none => rfl
      | some v =>
        cases v with
        | mapping d => exact absurd hget (hother d)
        | other v => rfl
    · rfl

theorem keys_dropProvenance (state : ConfigDict V × LossReport) (key : String) :
    (dropProvenance state key).1.keys = state.1.keys := by
  unfold dropProvenance
  split
  · next d hget =>
    split_ifs
    · exact Dict.keys_insert_of_mem _ (Dict.mem_keys.mpr ⟨_, hget⟩)
    · rfl
  · rfl

theorem droppedKeys_dropProvenance (state : ConfigDict V × LossReport) (key : String) :
    (dropProvenance state key).2.droppedKeys = state.2.droppedKeys ++
      if (state.1.get? key).any (·.hasProvenance) then [provenancePath key] else [] := by
  unfold dropProvenance
  split
  · next d hget =>
    rw [hget, Option.any_some]
    change _ = _ ++ if d.contains "provenance" = true then _ else _
    split_ifs
    · rfl
    · exact (List.append_nil _).symm
  · next hother =>
    have hnone : (state.1.get? key).any (·.hasProvenance) = false := by
      cases hget : state.1.get? key with
      | none => rfl
      | some v =>
        cases v with
        | mapping d => exact absurd hget (hother d)
        | other v => rfl
    rw [hnone]
    exact (List.append_nil _).symm

/-- Dropping the provenance of several sections. -/
theorem foldl_dropProvenance {keys : List String} (hnodup : keys.Nodup)
    (state : ConfigDict V × LossReport) :
    (∀ k, (keys.foldl dropProvenance state).1.get? k =
      if k ∈ keys then (state.1.get? k).map (·.withoutProvenance) else state.1.get? k) ∧
    (keys.foldl dropProvenance state).2.droppedKeys = state.2.droppedKeys ++
      (keys.filter fun k => (state.1.get? k).any (·.hasProvenance)).map provenancePath := by
  induction keys generalizing state with
  | nil => exact ⟨fun _ => rfl, (List.append_nil _).symm⟩
  | cons key keys ih =>
    obtain ⟨hnew, hrest⟩ := List.nodup_cons.mp hnodup
    obtain ⟨hget, hdropped⟩ := ih hrest (dropProvenance state key)
    rw [List.foldl_cons]
    constructor
    · intro k
      rw [hget, get?_dropProvenance]
      by_cases hk : k = key
      · subst hk
        rw [if_neg hnew, if_pos rfl, if_pos List.mem_cons_self]
      · rw [if_neg hk]
        simp [hk]
    · have hsame : keys.filter (fun k => ((dropProvenance state key).1.get? k).any
          (·.hasProvenance)) = keys.filter fun k => (state.1.get? k).any (·.hasProvenance) := by
        refine List.filter_congr fun k hk => ?_
        have hne : k ≠ key := by
          rintro rfl
          exact hnew hk
        rw [get?_dropProvenance, if_neg hne]
      rw [hdropped, droppedKeys_dropProvenance, hsame, List.append_assoc, List.filter_cons]
      split_ifs <;> rfl

theorem get?_migrateMemory (data : ConfigDict V) (loss : LossReport) (k : String) :
    (migrateMemory data loss).1.get? k =
      if k = "memory" then (data.get? "memory").map (·.withoutBandwidth) else data.get? k := by
  unfold migrateMemory
  split
  · next mem hget =>
    by_cases hbw : mem.contains "bandwidth_bytes_per_cycle" = true
    · rw [if_pos hbw, Dict.get?_insert, hget]
      rfl
    · have hsame : (ConfigValue.mapping mem).withoutBandwidth = .mapping mem :=
        congrArg ConfigValue.mapping (Dict.erase_of_get?_eq_none
          (Dict.contains_eq_false.mp (Bool.not_eq_true _ ▸ hbw)))
      rw [if_neg hbw, hget, Option.map_some, hsame]
      split_ifs with hk
      · rw [hk, hget]
      · rfl
  · next hother =>
    split_ifs with hk
    · rw [hk]
      cases hget : data.get? "memory" with
      | none => rfl
      | some v =>
        cases v with
        | mapping d => exact absurd hget (hother d)
        | other v => rfl
    · rfl

theorem droppedKeys_migrateMemory (data : ConfigDict V) (loss : LossReport) :
    (migrateMemory data loss).2.droppedKeys = loss.droppedKeys ++
      if (data.get? "memory").any (·.hasBandwidth)
      then ["memory.bandwidth_bytes_per_cycle"] else [] := by
  unfold migrateMemory
  split
  · next mem hget =>
    rw [hget, Option.any_some]
    change _ = _ ++ if mem.contains "bandwidth_bytes_per_cycle" = true then _ else _
    split_ifs
    · rfl
    · exact (List.append_nil _).symm
  · next hother =>
    have hnone : (data.get? "memory").any (·.hasBandwidth) = false := by
      cases hget : data.get? "memory" with
      | none => rfl
      | some v =>
        cases v with
        | mapping d => exact absurd hget (hother d)
        | other v => rfl
    rw [hnone]
    exact (List.append_nil _).symm

/-- A value of the legacy shape, before anything is dropped. -/
def legacyValue (c : ConfigDict V) (k : String) : Option (ConfigValue V) :=
  if k = "mxu" then c.get? "mac_engine"
  else if k = "mac_engine" ∨ k = "version" then none
  else c.get? k

/-- Renaming the engine section without its version. -/
theorem get?_projectEngine {c : ConfigDict V} (hmxu : c.get? "mxu" = none) (k : String) :
    (projectEngine (c.erase "version")).get? k = legacyValue c k := by
  have hmac : (c.erase "version").get? "mac_engine" = c.get? "mac_engine" := by
    rw [Dict.get?_erase, if_neg (by decide)]
  have hcases : k = "mxu" ∨ k = "mac_engine" ∨ k = "version" ∨
      (k ≠ "mxu" ∧ k ≠ "mac_engine" ∧ k ≠ "version") := by
    by_cases h1 : k = "mxu" <;> by_cases h2 : k = "mac_engine" <;>
      by_cases h3 : k = "version" <;> simp [h1, h2, h3]
  rw [projectEngine, hmac]
  cases hget : c.get? "mac_engine" with
  | none =>
    obtain rfl | rfl | rfl | ⟨h1, h2, h3⟩ := hcases
    · simp [legacyValue, hmxu, hget]
    · simp [legacyValue, hget]
    · simp [legacyValue]
    · simp [legacyValue, h1, h2, h3]
  | some mac =>
    obtain rfl | rfl | rfl | ⟨h1, h2, h3⟩ := hcases
    · simp [legacyValue, hget]
    · simp [legacyValue]
    · simp [legacyValue]
    · simp [legacyValue, h1, h2, h3]

/-- Paths of different sections are different. -/
theorem provenancePath_injective : Function.Injective provenancePath := by
  intro a b h
  have hlist := congrArg String.toList h
  rw [provenancePath, provenancePath, String.toList_append, String.toList_append] at hlist
  exact String.toList_inj.mp (List.append_cancel_right hlist)

theorem any_map_withoutProvenance (v : Option (ConfigValue V)) :
    (v.map (·.withoutProvenance)).any (·.hasProvenance) = false := by
  cases v with
  | none => rfl
  | some v => exact hasProvenance_withoutProvenance v

theorem map_withoutProvenance_idem (v : Option (ConfigValue V)) :
    (v.map (·.withoutProvenance)).map (·.withoutProvenance) = v.map (·.withoutProvenance) := by
  cases v with
  | none => rfl
  | some v => exact congrArg some (withoutProvenance_idem v)

theorem mem_keys_of_any {d : ConfigDict V} {k : String}
    (h : (d.get? k).any (·.hasProvenance) = true) : k ∈ d.keys := by
  cases hget : d.get? k with
  | none =>
    rw [hget] at h
    cases h
  | some v => exact Dict.mem_keys.mpr ⟨v, hget⟩

/-- The name of a section in the legacy shape. -/
def legacyName (k : String) : String := if k = "mac_engine" then "mxu" else k

/-- The sections of a configuration whose provenance the projection drops. -/
theorem exists_legacyValue_iff {c : ConfigDict V} (hmxu : c.get? "mxu" = none)
    {version : V} (hversion : c.get? "version" = some (.other version)) (path : String) :
    (∃ k, (legacyValue c k).any (·.hasProvenance) = true ∧ path = provenancePath k) ↔
      ∃ k, (c.get? k).any (·.hasProvenance) = true ∧ path = provenancePath (legacyName k) := by
  constructor
  · rintro ⟨k, hk, rfl⟩
    unfold legacyValue at hk
    split_ifs at hk with h1 h2
    · exact ⟨"mac_engine", hk, by rw [h1]; rfl⟩
    · cases hk
    · exact ⟨k, hk, by rw [legacyName, if_neg fun h => h2 (.inl h)]⟩
  · rintro ⟨k, hk, rfl⟩
    by_cases h1 : k = "mac_engine"
    · subst h1
      exact ⟨"mxu", hk, rfl⟩
    · have h2 : k ≠ "mxu" := by
        rintro rfl
        rw [hmxu] at hk
        cases hk
      have h3 : k ≠ "version" := by
        rintro rfl
        rw [hversion] at hk
        cases hk
      refine ⟨k, ?_, by rw [legacyName, if_neg h1]⟩
      rwa [legacyValue, if_neg h2, if_neg (by simp [h1, h3])]

end Steps

section Engine

variable {V : Type} [DecidableEq V] {py : Python V}

/-- Without the new name the old one is renamed, if it is there. -/
theorem migrateEngine_of_none {data : ConfigDict V} (hmac : data.get? "mac_engine" = none) :
    ∃ out loss, migrateEngine py data = .ok (out, loss) ∧ ∀ k, out.get? k =
      if k = "mac_engine" then data.get? "mxu" else if k = "mxu" then none else data.get? k := by
  cases hmxu : data.get? "mxu" with
  | none =>
    refine ⟨data, {}, by rw [migrateEngine, hmac, hmxu], fun k => ?_⟩
    split_ifs with h1 h2
    · rw [h1, hmac]
    · rw [h2, hmxu]
    · rfl
  | some mxu =>
    refine ⟨_, _, by rw [migrateEngine, hmac, hmxu], fun k => ?_⟩
    rw [Dict.get?_insert, Dict.get?_erase]

/-- A migrated engine section has the new name only. -/
theorem migrateEngine_ok {data out : ConfigDict V} {loss : LossReport}
    (h : migrateEngine py data = .ok (out, loss)) :
    out.get? "mxu" = none ∧ ∀ k, k ≠ "mac_engine" → k ≠ "mxu" → out.get? k = data.get? k := by
  unfold migrateEngine at h
  split at h
  · next mac mxu hmac hmxu =>
    dsimp only at h
    split_ifs at h
    cases h
    exact ⟨by simp, fun k _ hk => by rw [Dict.get?_erase, if_neg hk]⟩
  · cases h
    exact ⟨by simp, fun k hmac hmxu => by
      rw [Dict.get?_insert, if_neg hmac, Dict.get?_erase, if_neg hmxu]⟩
  · next hmxu =>
    cases h
    exact ⟨hmxu, fun k _ _ => rfl⟩

/-- The bandwidth of the memory, if it is given, can be converted to a float. -/
def FloatsBandwidth (py : Python V) (data : ConfigDict V) : Prop :=
  ∀ mem bw, data.get? "memory" = some (.mapping mem) → mem.get? "bandwidth_gbps" = some bw →
    bw = py.none ∨ ∃ x, py.float bw = .ok x

/-- Adding the bandwidth back changes nothing but the bandwidth of the memory. -/
theorem projectBandwidth_ok {data : ConfigDict V} (hfloats : FloatsBandwidth py data)
    (hderived : ∀ mem, data.get? "memory" = some (.mapping mem) →
      mem.get? "bandwidth_bytes_per_cycle" = none) :
    ∃ out, projectBandwidth py data = .ok out ∧ out.keys = data.keys ∧
      (∀ k, k ≠ "memory" → out.get? k = data.get? k) ∧
      (out.get? "memory").map (·.withoutBandwidth) = data.get? "memory" ∧
      (out.get? "memory").any (·.hasProvenance) =
        (data.get? "memory").any (·.hasProvenance) := by
  have hsame : (data.get? "memory").map (·.withoutBandwidth) = data.get? "memory" := by
    cases hget : data.get? "memory" with
    | none => rfl
    | some v =>
      cases v with
      | mapping mem =>
        exact congrArg (fun d => some (ConfigValue.mapping d))
          (Dict.erase_of_get?_eq_none (hderived mem hget))
      | other v => rfl
  have hkept : projectBandwidth py data = .ok data → ∃ out, projectBandwidth py data = .ok out ∧
      out.keys = data.keys ∧ (∀ k, k ≠ "memory" → out.get? k = data.get? k) ∧
      (out.get? "memory").map (·.withoutBandwidth) = data.get? "memory" ∧
      (out.get? "memory").any (·.hasProvenance) = (data.get? "memory").any (·.hasProvenance) :=
    fun h => ⟨data, h, rfl, fun _ _ => rfl, hsame, rfl⟩
  cases hget : data.get? "memory" with
  | none => exact hget ▸ hkept (by rw [projectBandwidth, hget])
  | some v =>
    cases v with
    | other v => exact hget ▸ hkept (by rw [projectBandwidth, hget])
    | mapping mem =>
      cases hbw : mem.get? "bandwidth_gbps" with
      | none => exact hget ▸ hkept (by simp only [projectBandwidth, hget, hbw])
      | some bw =>
        by_cases hnone : bw = py.none
        · exact hget ▸ hkept (by simp only [projectBandwidth, hget, hbw, if_pos hnone])
        · obtain ⟨x, hx⟩ := (hfloats mem bw hget hbw).resolve_left hnone
          refine ⟨data.insert "memory" (.mapping (mem.insert "bandwidth_bytes_per_cycle" x)), ?_,
            Dict.keys_insert_of_mem _ (Dict.mem_keys.mpr ⟨_, hget⟩), fun k hk => ?_, ?_, ?_⟩
          · simp only [projectBandwidth, hget, hbw, if_neg hnone, hx]
            rfl
          · rw [Dict.get?_insert, if_neg hk]
          · rw [Dict.get?_insert, if_pos rfl]
            exact congrArg (fun d => some (ConfigValue.mapping d))
              (Dict.erase_insert x (hderived mem hget))
          · rw [Dict.get?_insert, if_pos rfl]
            simp [ConfigValue.hasProvenance, Dict.contains]

/-! ### The projection -/

/-- The projection drops every provenance, reports each once, and keeps the rest but for the
bandwidth that it adds. -/
theorem projectV2ToLegacy_ok {c : ConfigDict V} (hmxu : c.get? "mxu" = none)
    (hderived : ∀ mem, c.get? "memory" = some (.mapping mem) →
      mem.get? "bandwidth_bytes_per_cycle" = none) (hfloats : FloatsBandwidth py c) :
    ∃ legacy loss, projectV2ToLegacy py c = .ok (legacy, loss) ∧
      (∀ k, k ≠ "memory" → legacy.get? k = (legacyValue c k).map (·.withoutProvenance)) ∧
      (legacy.get? "memory").map (·.withoutBandwidth) =
        (c.get? "memory").map (·.withoutProvenance) ∧
      (∀ path, path ∈ loss.droppedKeys ↔
        ∃ k, (legacyValue c k).any (·.hasProvenance) = true ∧ path = provenancePath k) ∧
      loss.droppedKeys.Nodup := by
  have hrenamed := get?_projectEngine hmxu
  unfold projectV2ToLegacy
  dsimp only
  generalize projectEngine (c.erase "version") = renamed at hrenamed ⊢
  have hmemory : (dropProvenance (renamed, {}) "mxu").1.get? "memory" = c.get? "memory" := by
    rw [get?_dropProvenance, if_neg (by decide), hrenamed]
    rfl
  have hfloats' : FloatsBandwidth py (dropProvenance (renamed, {}) "mxu").1 := by
    unfold FloatsBandwidth
    rw [hmemory]
    exact hfloats
  obtain ⟨out, hout, hkeys, hothers, hbandwidth, hprov⟩ :=
    projectBandwidth_ok hfloats' (by rw [hmemory]; exact hderived)
  rw [hout, bind_eq_ok_left]
  rw [hmemory] at hbandwidth hprov
  generalize hmid : dropProvenance (out, (dropProvenance (renamed, {}) "mxu").2) "memory" = mid
  have hmidGet : ∀ k, mid.1.get? k = if k = "memory" then
      (out.get? "memory").map (·.withoutProvenance) else out.get? k := by
    intro k
    rw [← hmid, get?_dropProvenance]
  have hmidAny : ∀ k, (mid.1.get? k).any (·.hasProvenance) = true ↔
      k ≠ "mxu" ∧ k ≠ "memory" ∧ (legacyValue c k).any (·.hasProvenance) = true := by
    intro k
    rw [hmidGet]
    by_cases hk : k = "memory"
    · rw [if_pos hk, any_map_withoutProvenance]
      simp [hk]
    · rw [if_neg hk, hothers k hk, get?_dropProvenance, hrenamed, hrenamed]
      by_cases hkmxu : k = "mxu"
      · rw [if_pos hkmxu, any_map_withoutProvenance]
        simp [hkmxu]
      · rw [if_neg hkmxu]
        simp [hk, hkmxu]
  obtain ⟨hget, hdropped⟩ := foldl_dropProvenance mid.1.keys_nodup mid
  have hall : ∀ k, (mid.1.keys.foldl dropProvenance mid).1.get? k =
      (mid.1.get? k).map (·.withoutProvenance) := by
    intro k
    rw [hget]
    split_ifs with hk
    · rfl
    · rw [Dict.not_mem_keys.mp hk]
      rfl
  have hmidDropped : mid.2.droppedKeys =
      (if (legacyValue c "mxu").any (·.hasProvenance) then [provenancePath "mxu"] else []) ++
        if (legacyValue c "memory").any (·.hasProvenance) then [provenancePath "memory"]
        else [] := by
    rw [← hmid, droppedKeys_dropProvenance, droppedKeys_dropProvenance, hprov, hrenamed]
    rfl
  refine ⟨_, _, rfl, fun k hk => ?_, ?_, fun path => ?_, ?_⟩
  · rw [hall, hmidGet, if_neg hk, hothers k hk, get?_dropProvenance, hrenamed, hrenamed]
    split_ifs with hmxu
    · rw [hmxu, map_withoutProvenance_idem]
    · rfl
  · rw [hall, hmidGet, if_pos rfl, map_withoutProvenance_idem, ← hbandwidth]
    cases out.get? "memory" with
    | none => rfl
    | some v => exact congrArg some (withoutBandwidth_withoutProvenance v)
  · rw [hdropped, hmidDropped, List.mem_append, List.mem_append]
    constructor
    · rintro ((hpath | hpath) | hpath)
      · split_ifs at hpath with hprov'
        · exact ⟨"mxu", hprov', List.mem_singleton.mp hpath⟩
        · cases hpath
      · split_ifs at hpath with hprov'
        · exact ⟨"memory", hprov', List.mem_singleton.mp hpath⟩
        · cases hpath
      · obtain ⟨k, hk, rfl⟩ := List.mem_map.mp hpath
        exact ⟨k, ((hmidAny k).mp (List.mem_filter.mp hk).2).2.2, rfl⟩
    · rintro ⟨k, hk, rfl⟩
      by_cases hkmxu : k = "mxu"
      · subst hkmxu
        exact .inl (.inl (by rw [if_pos hk]; exact List.mem_singleton_self _))
      · by_cases hkmem : k = "memory"
        · subst hkmem
          exact .inl (.inr (by rw [if_pos hk]; exact List.mem_singleton_self _))
        · have hany := (hmidAny k).mpr ⟨hkmxu, hkmem, hk⟩
          exact .inr (List.mem_map_of_mem
            (List.mem_filter.mpr ⟨mem_keys_of_any hany, hany⟩))
  · have hrest : ((mid.1.keys.filter fun k => (mid.1.get? k).any (·.hasProvenance)).map
        provenancePath).Nodup :=
      (mid.1.keys_nodup.filter _).map provenancePath_injective
    have hnew : ∀ k, k = "mxu" ∨ k = "memory" → provenancePath k ∉
        (mid.1.keys.filter fun k => (mid.1.get? k).any (·.hasProvenance)).map provenancePath := by
      intro k hk hmem
      obtain ⟨k', hk', hpath⟩ := List.mem_map.mp hmem
      obtain rfl := provenancePath_injective hpath
      obtain ⟨h1, h2, -⟩ := (hmidAny k').mp (List.mem_filter.mp hk').2
      exact hk.elim h1 h2
    rw [hdropped, hmidDropped]
    split_ifs
    · simpa [hrest, hnew] using fun h => absurd (provenancePath_injective h) (by decide)
    · simpa [hrest] using hnew "mxu" (.inl rfl)
    · simpa [hrest] using hnew "memory" (.inr rfl)
    · simpa using hrest

/-! ### Migration inverts projection -/

/-- Migrating what was projected gives the configuration back without the provenance of its
sections, each of which is reported once. -/
theorem migrate_project {c : ConfigDict V}
    (hversion : c.get? "version" = some (.other (py.ofStr "2"))) (hmxu : c.get? "mxu" = none)
    (hderived : ∀ mem, c.get? "memory" = some (.mapping mem) →
      mem.get? "bandwidth_bytes_per_cycle" = none) (hfloats : FloatsBandwidth py c) :
    ∃ legacy loss c' loss', projectV2ToLegacy py c = .ok (legacy, loss) ∧
      migrateV1ToV2 py legacy = .ok (c', loss') ∧
      (∀ k, c'.get? k = (c.get? k).map fun v =>
        if provenancePath (legacyName k) ∈ loss.droppedKeys then v.withoutProvenance else v) ∧
      (∀ path, path ∈ loss.droppedKeys ↔
        ∃ k, (c.get? k).any (·.hasProvenance) = true ∧ path = provenancePath (legacyName k)) ∧
      loss.droppedKeys.Nodup := by
  obtain ⟨legacy, loss, hproject, hlegacy, hmemory, hpaths, hnodup⟩ :=
    projectV2ToLegacy_ok hmxu hderived hfloats
  have hreported := fun path => (hpaths path).trans (exists_legacyValue_iff hmxu hversion path)
  have hmac : (legacy.insert "version" (.other (py.ofStr "2"))).get? "mac_engine" = none := by
    rw [Dict.get?_insert, if_neg (by decide), hlegacy _ (by decide)]
    rfl
  have hengineValue : (legacy.insert "version" (.other (py.ofStr "2"))).get? "mxu" =
      (c.get? "mac_engine").map (·.withoutProvenance) := by
    rw [Dict.get?_insert, if_neg (by decide), hlegacy _ (by decide)]
    rfl
  obtain ⟨engine, loss₁, hengine, hget⟩ := @migrateEngine_of_none V _ py _ hmac
  rw [hengineValue] at hget
  refine ⟨legacy, loss, (migrateMemory engine loss₁).1, (migrateMemory engine loss₁).2, hproject,
    ?_, fun k => ?_, hreported, hnodup⟩
  · rw [migrateV1ToV2, hengine]
    rfl
  · have hstripped : ((c.get? k).map fun v => if provenancePath (legacyName k) ∈
        loss.droppedKeys then v.withoutProvenance else v) =
          (c.get? k).map (·.withoutProvenance) := by
      cases hk : c.get? k with
      | none => rfl
      | some v =>
        rw [Option.map_some, Option.map_some]
        by_cases hprov : v.hasProvenance = true
        · rw [if_pos ((hreported _).mpr ⟨k, by rw [hk]; exact hprov, rfl⟩)]
        · rw [withoutProvenance_of_not (Bool.not_eq_true _ ▸ hprov), ite_self]
    rw [hstripped, get?_migrateMemory]
    by_cases hkmem : k = "memory"
    · subst hkmem
      rw [if_pos rfl, hget, if_neg (by decide), if_neg (by decide), Dict.get?_insert,
        if_neg (by decide), hmemory]
    · rw [if_neg hkmem, hget, Dict.get?_insert, hlegacy k hkmem]
      by_cases h1 : k = "mac_engine"
      · rw [if_pos h1, h1]
      · rw [if_neg h1]
        by_cases h2 : k = "mxu"
        · rw [if_pos h2, h2, hmxu]
          rfl
        · rw [if_neg h2]
          by_cases h3 : k = "version"
          · rw [if_pos h3, h3, hversion]
            rfl
          · rw [if_neg h3, legacyValue, if_neg h2, if_neg (by simp [h1, h3])]

/-- A configuration without the legacy section keeps its engine section. -/
theorem migrateEngine_of_mxu_none {data : ConfigDict V} (h : data.get? "mxu" = none) :
    migrateEngine py data = .ok (data, {}) := by
  unfold migrateEngine
  rw [h]
  cases data.get? "mac_engine" <;> rfl

/-- A migrated configuration is migrated to itself. -/
theorem migrate_idem {c c' : ConfigDict V} {loss : LossReport}
    (h : migrateV1ToV2 py c = .ok (c', loss)) :
    ∃ c'' loss', migrateV1ToV2 py c' = .ok (c'', loss') ∧ ∀ k, c''.get? k = c'.get? k := by
  unfold migrateV1ToV2 at h
  obtain ⟨⟨engine, loss₁⟩, hengine, h⟩ := bind_eq_ok.mp h
  obtain ⟨hmxu, hothers⟩ := migrateEngine_ok hengine
  have hget := get?_migrateMemory engine loss₁
  have hc' : c' = (migrateMemory engine loss₁).1 := congrArg Prod.fst (Except.ok.inj h).symm
  rw [← hc'] at hget
  have hnone : (c'.insert "version" (.other (py.ofStr "2"))).get? "mxu" = none := by
    rw [Dict.get?_insert, if_neg (by decide), hget, if_neg (by decide), hmxu]
  refine ⟨(migrateMemory (c'.insert "version" (.other (py.ofStr "2"))) {}).1,
    (migrateMemory (c'.insert "version" (.other (py.ofStr "2"))) {}).2, ?_, fun k => ?_⟩
  · rw [migrateV1ToV2, migrateEngine_of_mxu_none hnone]
    rfl
  rw [get?_migrateMemory, Dict.get?_insert, Dict.get?_insert, if_neg (by decide : ¬"memory" = _)]
  by_cases hmem : k = "memory"
  · rw [if_pos hmem, hmem, hget, if_pos rfl]
    cases engine.get? "memory" with
    | none => rfl
    | some v => exact congrArg some (withoutBandwidth_idem v)
  · rw [if_neg hmem]
    by_cases hversion : k = "version"
    · rw [if_pos hversion, hversion, hget, if_neg (by decide), hothers _ (by decide) (by decide),
        Dict.get?_insert, if_pos rfl]
    · rw [if_neg hversion]

/-- Both laws of migration. -/
theorem migrate_inverts_project (py : Python V) :
    (∀ c : ConfigDict V, c.get? "version" = some (.other (py.ofStr "2")) → c.get? "mxu" = none →
      (∀ mem, c.get? "memory" = some (.mapping mem) →
        mem.get? "bandwidth_bytes_per_cycle" = none) → FloatsBandwidth py c →
      ∃ legacy loss c' loss', projectV2ToLegacy py c = .ok (legacy, loss) ∧
        migrateV1ToV2 py legacy = .ok (c', loss') ∧
        (∀ k, c'.get? k = (c.get? k).map fun v =>
          if provenancePath (legacyName k) ∈ loss.droppedKeys then v.withoutProvenance else v) ∧
        (∀ path, path ∈ loss.droppedKeys ↔
          ∃ k, (c.get? k).any (·.hasProvenance) = true ∧ path = provenancePath (legacyName k)) ∧
        loss.droppedKeys.Nodup) ∧
    ∀ (c c' : ConfigDict V) (loss : LossReport), migrateV1ToV2 py c = .ok (c', loss) →
      ∃ c'' loss', migrateV1ToV2 py c' = .ok (c'', loss') ∧ ∀ k, c''.get? k = c'.get? k :=
  ⟨fun _ hversion hmxu hderived hfloats => migrate_project hversion hmxu hderived hfloats,
    fun _ _ _ h => migrate_idem h⟩

end Engine

/-! ### A bandwidth that is no number -/

/-- Values that are texts which are no numbers, or nothing. -/
def textPython : Python (Option String) where
  none := none
  ofStr := some
  repr v := v.elim "None" reprStr
  float v := v.elim
    (.error (.valueError "float() argument must be a string or a real number, not 'NoneType'"))
    fun s => .error (.valueError ("could not convert string to float: " ++ reprStr s))

/-- A memory section with a text as its bandwidth. -/
def fastMemory : Dict String (Option String) := Dict.empty.insert "bandwidth_gbps" (some "fast")

/-- A configuration of the second version with this memory. -/
def fastConfig : ConfigDict (Option String) :=
  (Dict.empty.insert "version" (.other (some "2"))).insert "memory" (.mapping fastMemory)

/-- A bandwidth that is no number cannot be projected. -/
theorem fastConfig_not_projected :
    fastConfig.get? "version" = some (.other (textPython.ofStr "2")) ∧
    fastConfig.get? "mxu" = none ∧
    (∀ mem, fastConfig.get? "memory" = some (.mapping mem) →
      mem.get? "bandwidth_bytes_per_cycle" = none) ∧
    ∀ out, projectV2ToLegacy textPython fastConfig ≠ .ok out := by
  refine ⟨rfl, rfl, fun mem h => ?_, fun out h => ?_⟩
  · have hmem : fastConfig.get? "memory" = some (.mapping fastMemory) := rfl
    rw [hmem] at h
    cases h
    rfl
  · have herror : projectV2ToLegacy textPython fastConfig =
        .error (.valueError "could not convert string to float: 'fast'") := rfl
    rw [herror] at h
    cases h

/-! ### What a migration keeps -/

section Leaves

variable {V Λ : Type}

/-- Whether two sections agree in every field. -/
def ConfigValue.Same : ConfigValue V → ConfigValue V → Prop
  | .mapping d, .mapping d' => ∀ k, d.get? k = d'.get? k
  | .other v, .other v' => v = v'
  | _, _ => False

/-- Whether a leaf is below a field of a section, or below a value that is none. -/
def ConfigValue.HasLeaf (leaves : V → Set Λ) : ConfigValue V → Option String → Λ → Prop
  | .mapping d, some field, x => ∃ v, d.get? field = some v ∧ x ∈ leaves v
  | .other v, none, x => x ∈ leaves v
  | _, _, _ => False

/-- Whether a configuration has a leaf below a key, and below a field of its section. -/
def HasLeaf (leaves : V → Set Λ) (c : ConfigDict V) (key : String) (field : Option String)
    (x : Λ) : Prop :=
  ∃ value, c.get? key = some value ∧ value.HasLeaf leaves field x

/-- The path that a leaf is reported under. -/
def leafPath (key : String) : Option String → String
  | some field => key ++ "." ++ field
  | none => key

theorem leafPath_version_ne (field : Option String) :
    leafPath "version" field ≠ "memory.bandwidth_bytes_per_cycle" := by
  intro h
  cases field with
  | none => exact absurd h (by decide)
  | some field =>
    have hhead := congrArg (fun s : String => s.toList.head?) h
    simp [leafPath] at hhead

/-- The name of a section in the second version of the schema. -/
def migratedName (key : String) : String := if key = "mxu" then "mac_engine" else key

theorem ConfigValue.Same.hasLeaf {leaves : V → Set Λ} {v v' : ConfigValue V} (h : v.Same v')
    {field : Option String} {x : Λ} (hleaf : v'.HasLeaf leaves field x) :
    v.HasLeaf leaves field x := by
  cases v with
  | mapping d =>
    cases v' with
    | mapping d' =>
      cases field with
      | none => exact hleaf
      | some field =>
        obtain ⟨value, hget, hx⟩ := hleaf
        exact ⟨value, (h field).trans hget, hx⟩
    | other v' => exact h.elim
  | other v =>
    cases v' with
    | mapping d' => exact h.elim
    | other v' =>
      obtain rfl : v = v' := h
      exact hleaf

/-- Only the derived bandwidth is lost with it. -/
theorem ConfigValue.HasLeaf.withoutBandwidth {leaves : V → Set Λ} {v : ConfigValue V}
    {field : Option String} {x : Λ} (h : v.HasLeaf leaves field x) :
    v.withoutBandwidth.HasLeaf leaves field x ∨ v.hasBandwidth = true ∧
      field = some "bandwidth_bytes_per_cycle" := by
  cases v with
  | other v => exact .inl h
  | mapping d =>
    cases field with
    | none => exact h.elim
    | some field =>
      obtain ⟨value, hget, hx⟩ := h
      by_cases hfield : field = "bandwidth_bytes_per_cycle"
      · subst hfield
        exact .inr ⟨Dict.contains_iff.mpr (Dict.mem_keys.mpr ⟨value, hget⟩), rfl⟩
      · exact .inl ⟨value, by rw [Dict.get?_erase, if_neg hfield, hget], hx⟩

end Leaves

section Safety

variable {V Λ : Type} [DecidableEq V] {py : Python V}

/-- Whether both engine sections are there with different types. -/
def EnginesConflict (py : Python V) (c : ConfigDict V) : Prop :=
  ∃ mac mxu, c.get? "mac_engine" = some mac ∧ c.get? "mxu" = some mxu ∧
    mac.engineType py ≠ mxu.engineType py

/-- Whether the engine sections, if both are there, agree in every field. -/
def EnginesAgree (c : ConfigDict V) : Prop :=
  ∀ mac mxu, c.get? "mac_engine" = some mac → c.get? "mxu" = some mxu → mac.Same mxu

/-- Whether a version, if it is given, is the second. -/
def VersionKept (py : Python V) (leaves : V → Set Λ) (c : ConfigDict V) : Prop :=
  ∀ field x, HasLeaf leaves c "version" field x → field = none ∧ x ∈ leaves (py.ofStr "2")

/-- Migration is rejected. -/
def MigrationRejected (py : Python V) (c : ConfigDict V) : Prop :=
  ∃ message path, migrateV1ToV2 py c = .error (.configError message path)

/-- Migration keeps every leaf, reports it or is rejected, and is rejected whenever the engine
sections differ in a field. -/
def MigratesSafely (py : Python V) (leaves : V → Set Λ) (c : ConfigDict V) : Prop :=
  (MigrationRejected py c ∨ ∃ c' loss, migrateV1ToV2 py c = .ok (c', loss) ∧
    ∀ key field x, HasLeaf leaves c key field x →
      HasLeaf leaves c' (migratedName key) field x ∨ leafPath key field ∈ loss.droppedKeys) ∧
  (∀ mac mxu, c.get? "mac_engine" = some mac → c.get? "mxu" = some mxu → ¬mac.Same mxu →
    MigrationRejected py c)

/-- Engine sections with different types are rejected. -/
theorem EnginesConflict.rejected {c : ConfigDict V} (h : EnginesConflict py c) :
    MigrationRejected py c := by
  obtain ⟨mac, mxu, hmac, hmxu, htypes⟩ := h
  have hengine : ∃ message path, migrateEngine py (c.insert "version" (.other (py.ofStr "2"))) =
      .error (.configError message path) := by
    rw [migrateEngine, Dict.get?_insert, if_neg (by decide), hmac, Dict.get?_insert,
      if_neg (by decide), hmxu]
    exact ⟨_, _, if_pos htypes⟩
  obtain ⟨message, path, hengine⟩ := hengine
  exact ⟨message, path, by rw [migrateV1ToV2, hengine]; rfl⟩

/-- Otherwise the engine section is the new one, if it is there. -/
theorem migrateEngine_of_not_conflict {data : ConfigDict V} (h : ¬EnginesConflict py data) :
    ∃ out loss, migrateEngine py data = .ok (out, loss) ∧ loss.droppedKeys = [] ∧
      out.get? "mac_engine" = (data.get? "mac_engine").or (data.get? "mxu") := by
  unfold migrateEngine
  cases hmac : data.get? "mac_engine" with
  | none =>
    cases hmxu : data.get? "mxu" with
    | none => exact ⟨data, {}, rfl, rfl, hmac⟩
    | some mxu => exact ⟨_, _, rfl, rfl, by rw [Dict.get?_insert, if_pos rfl, Option.none_or]⟩
  | some mac =>
    cases hmxu : data.get? "mxu" with
    | none => exact ⟨data, {}, rfl, rfl, hmac⟩
    | some mxu =>
      have htypes : mac.engineType py = mxu.engineType py := by
        by_contra hne
        exact h ⟨mac, mxu, hmac, hmxu, hne⟩
      refine ⟨data.erase "mxu", _, if_neg (not_not.mpr htypes), rfl, ?_⟩
      rw [Dict.get?_erase, if_neg (by decide), hmac, Option.some_or]

/-- What a configuration is migrated to. -/
theorem migrate_of_not_conflict {c : ConfigDict V} (h : ¬EnginesConflict py c) :
    ∃ c' loss, migrateV1ToV2 py c = .ok (c', loss) ∧
      c'.get? "mac_engine" = (c.get? "mac_engine").or (c.get? "mxu") ∧
      c'.get? "version" = some (.other (py.ofStr "2")) ∧
      c'.get? "memory" = (c.get? "memory").map (·.withoutBandwidth) ∧
      (∀ k, k ≠ "mac_engine" → k ≠ "mxu" → k ≠ "version" → k ≠ "memory" →
        c'.get? k = c.get? k) ∧
      loss.droppedKeys = if (c.get? "memory").any (·.hasBandwidth)
        then ["memory.bandwidth_bytes_per_cycle"] else [] := by
  have hget : ∀ k, k ≠ "version" →
      (c.insert "version" (.other (py.ofStr "2"))).get? k = c.get? k :=
    fun k hk => by rw [Dict.get?_insert, if_neg hk]
  have hconflict : ¬EnginesConflict py (c.insert "version" (.other (py.ofStr "2"))) := by
    unfold EnginesConflict
    rwa [hget _ (by decide), hget _ (by decide)]
  obtain ⟨engine, loss, hengine, hdropped, hmac⟩ := migrateEngine_of_not_conflict hconflict
  obtain ⟨-, hothers⟩ := migrateEngine_ok hengine
  rw [hget _ (by decide), hget _ (by decide)] at hmac
  have hmemory : engine.get? "memory" = c.get? "memory" := by
    rw [hothers _ (by decide) (by decide), hget _ (by decide)]
  have hmigrate : migrateV1ToV2 py c = .ok (migrateMemory engine loss) := by
    rw [migrateV1ToV2, hengine]
    rfl
  refine ⟨(migrateMemory engine loss).1, (migrateMemory engine loss).2, hmigrate, ?_, ?_, ?_,
    fun k h1 h2 h3 h4 => ?_, ?_⟩
  · rw [get?_migrateMemory, if_neg (by decide), hmac]
  · rw [get?_migrateMemory, if_neg (by decide), hothers _ (by decide) (by decide),
      Dict.get?_insert, if_pos rfl]
  · rw [get?_migrateMemory, if_pos rfl, hmemory]
  · rw [get?_migrateMemory, if_neg h4, hothers k h1 h2, hget k h3]
  · rw [droppedKeys_migrateMemory, hdropped, hmemory, List.nil_append]

/-- Every setting is kept or reported, or the migration is rejected, exactly if the engine
sections have different types, or agree in every field and there is no other version. -/
theorem migratesSafely_iff (py : Python V) (leaves : V → Set Λ) (c : ConfigDict V) :
    MigratesSafely py leaves c ↔
      EnginesConflict py c ∨ (EnginesAgree c ∧ VersionKept py leaves c) := by
  by_cases hconflict : EnginesConflict py c
  · exact iff_of_true ⟨.inl hconflict.rejected, fun _ _ _ _ _ => hconflict.rejected⟩
      (.inl hconflict)
  obtain ⟨c', loss, hc', hmac, hversion, hmemory, hothers, hdropped⟩ :=
    migrate_of_not_conflict hconflict
  have hnot : ¬MigrationRejected py c := by
    rintro ⟨message, path, herror⟩
    rw [hc'] at herror
    cases herror
  constructor
  · rintro ⟨hkept, hdiffer⟩
    refine .inr ⟨fun mac mxu hgetMac hgetMxu => ?_, fun field x hleaf => ?_⟩
    · by_contra hsame
      exact hnot (hdiffer mac mxu hgetMac hgetMxu hsame)
    · obtain ⟨c'', loss'', hc'', hleaves⟩ := hkept.resolve_left hnot
      obtain ⟨rfl, rfl⟩ := Prod.mk.inj (Except.ok.inj (hc'.symm.trans hc''))
      obtain ⟨value, hvalue, hx⟩ | hpath := hleaves _ _ _ hleaf
      · rw [migratedName, if_neg (by decide), hversion] at hvalue
        cases hvalue
        cases field with
        | none => exact ⟨rfl, hx⟩
        | some field => exact hx.elim
      · rw [hdropped] at hpath
        split_ifs at hpath
        · exact absurd (List.mem_singleton.mp hpath) (leafPath_version_ne field)
        · cases hpath
  · intro h
    obtain ⟨hagree, hkeptVersion⟩ := h.resolve_left hconflict
    refine ⟨.inr ⟨c', loss, hc', fun key field x hleaf => ?_⟩, fun mac mxu h1 h2 hne =>
      absurd (hagree mac mxu h1 h2) hne⟩
    obtain ⟨value, hvalue, hx⟩ := hleaf
    by_cases h1 : key = "mxu"
    · subst h1
      refine .inl ?_
      rw [migratedName, if_pos rfl]
      cases hgetMac : c.get? "mac_engine" with
      | none => exact ⟨value, by rw [hmac, hgetMac, hvalue]; rfl, hx⟩
      | some mac =>
        exact ⟨mac, by rw [hmac, hgetMac]; rfl, (hagree mac value hgetMac hvalue).hasLeaf hx⟩
    rw [migratedName, if_neg h1]
    by_cases h2 : key = "mac_engine"
    · subst h2
      exact .inl ⟨value, by rw [hmac, hvalue]; rfl, hx⟩
    by_cases h3 : key = "version"
    · subst h3
      obtain ⟨rfl, htwo⟩ := hkeptVersion field x ⟨value, hvalue, hx⟩
      exact .inl ⟨_, hversion, htwo⟩
    by_cases h4 : key = "memory"
    · subst h4
      obtain hleaf | ⟨hbandwidth, rfl⟩ := hx.withoutBandwidth
      · exact .inl ⟨_, by rw [hmemory, hvalue]; rfl, hleaf⟩
      · refine .inr ?_
        rw [hdropped, hvalue, Option.any_some, if_pos hbandwidth]
        exact List.mem_singleton_self _
    · exact .inl ⟨value, by rw [hothers key h2 h1 h3 h4, hvalue], hx⟩

end Safety

/-- An engine section with a number of rows. -/
def blockSection (height : String) : ConfigValue (Option String) :=
  .mapping ((Dict.empty.insert "type" (some "block")).insert "array_height" (some height))

/-- A configuration with two engine sections that differ in the number of rows. -/
def twoHeights : ConfigDict (Option String) :=
  (Dict.empty.insert "mac_engine" (blockSection "64")).insert "mxu" (blockSection "128")

/-- The number of rows in the legacy section is lost without a report. -/
theorem twoHeights_not_safe : ¬MigratesSafely textPython (fun v => {v}) twoHeights := by
  rintro ⟨-, hdiffer⟩
  have hne : ¬(blockSection "64").Same (blockSection "128") := fun h =>
    absurd (h "array_height") (by decide)
  obtain ⟨message, path, herror⟩ := hdiffer _ _ rfl rfl hne
  have hok : ∃ out, migrateV1ToV2 textPython twoHeights = .ok out := ⟨_, rfl⟩
  obtain ⟨out, hout⟩ := hok
  rw [hout] at herror
  cases herror

end Migrations

end NpuArc
