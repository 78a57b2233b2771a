import NpuArc.Contracts.ReadBack
import NpuArc.Dse.Models
import NpuArc.Library.PyText

/-!
# Replay bundles

A replay bundle is a directory with the canonical texts of a run's inputs, its result and its
coverage, a manifest with their digests, the checksums of these four files, and metadata. The
writer refuses to replace files unless it is told to. The reader checks every digest, so what
it accepts is what was written; but the values it returns are those that the canonical texts
still hold.
-/

namespace NpuArc

namespace Dse

open PyData

variable {F : Type}

/-- What stands under a path: nothing, a file, or a directory with the texts of its files. -/
inductive Location
  | missing
  | file
  | directory (files : Dict String String)

/-- The text of a file of a directory. -/
def Location.get? : Location → String → Option String
  | .directory files, name => files.get? name
  | _, _ => none

/-- An exception of the writer or the reader: a typed one, or one of the operating system or
of an operation on a value of another type. -/
inductive BundleError
  | raised (e : Error)
  | fileExists
  | fileNotFound (name : String)
  | attributeError
  | typeError
  deriving DecidableEq

def canonicalPayloadFiles : List String :=
  ["inputs.json", "result.json", "coverage.json", "manifest.json"]

/-- What a bundle is written from: the parts of the run's inputs, and the dumps of its result
and of its coverage manifest. -/
structure ReplayRun (F : Type) where
  scenarioDict : PyData F
  axesDict : PyData F
  seed : ℤ
  runConfig : PyData F
  points : List (DesignPoint (PyData F) (PyData F))
  resultMembers : List (DictKey × PyData F)
  coverageMembers : List (DictKey × PyData F)
  command : String := ""
  gitCommit : String := ""

namespace ReplayRun

def designPointDict (p : DesignPoint (PyData F) (PyData F)) : PyData F :=
  record [("design_point_id", .str p.designPointId), ("scenario_ref", .str p.scenarioRef),
    ("workload_ref", optionalData p.workloadRef), ("axis_values", ofMembers p.axisValues),
    ("hardware_config", p.hardwareConfig)]

/-- Build the normalized inputs dictionary. -/
def inputsDict (run : ReplayRun F) : PyData F :=
  record [("schema_version", .str "1"), ("scenario", run.scenarioDict), ("axes", run.axesDict),
    ("seed", .int run.seed), ("run_config", run.runConfig),
    ("design_points", .list (run.points.map designPointDict))]

def resultDict (run : ReplayRun F) : PyData F := .dict run.resultMembers

def coverageDict (run : ReplayRun F) : PyData F := .dict run.coverageMembers

end ReplayRun

/-- The digests of a bundle. -/
structure Digests where
  inputs : String
  result : String
  coverage : String
  canonicalPayload : String

def Digests.fields (digests : Digests) : List (String × PyData F) :=
  [("inputs", .str digests.inputs), ("result", .str digests.result),
    ("coverage", .str digests.coverage), ("canonical_payload", .str digests.canonicalPayload)]

def manifestFields (digests : Digests) (designPointCount : ℕ) : List (String × PyData F) :=
  [("schema_version", .str "1"), ("payload_files", stringsData canonicalPayloadFiles),
    ("digests", record digests.fields), ("design_point_count", .int designPointCount)]

/-- Build the bundle manifest that links the payload files. -/
def manifestDict (digests : Digests) (designPointCount : ℕ) : PyData F :=
  record (manifestFields digests designPointCount)

/-- The texts of the payload files. -/
structure Payload where
  inputs : String
  result : String
  coverage : String
  manifest : String

def Payload.files (p : Payload) : List (String × String) :=
  [("inputs.json", p.inputs), ("result.json", p.result), ("coverage.json", p.coverage),
    ("manifest.json", p.manifest)]

/-- What the reader returns. -/
structure ReplayBundle (F : Type) where
  inputs : PyData F
  result : PyData F
  coverage : PyData F
  manifest : PyData F
  metadata : PyData F

section Bundle

variable (py : F → String) (float : String → F) (sha256Hex : String → String)

/-! ### Writing -/

/-- The digests of three texts. -/
def digestsOf (inputs result coverage : String) : Digests where
  inputs := sha256Hex inputs
  result := sha256Hex result
  coverage := sha256Hex coverage
  canonicalPayload := sha256Hex (inputs ++ result ++ coverage)

/-- The canonical texts of a run. -/
def payload (run : ReplayRun F) : Except Error Payload := do
  let inputs ← canonicalJsonBytes py run.inputsDict
  let result ← canonicalJsonBytes py run.resultDict
  let coverage ← canonicalJsonBytes py run.coverageDict
  let digests := digestsOf sha256Hex inputs result coverage
  let manifest ← canonicalJsonBytes py (manifestDict digests run.points.length)
  return { inputs, result, coverage, manifest }

/-- Write a file; an existing file is replaced only if this is allowed. -/
def writeFile (root : String) (allowOverwrite : Bool) (e : String × String)
    (files : Dict String String) : Except BundleError (Dict String String) :=
  if !allowOverwrite && files.contains e.1 then
    .error (.raised (.configError
      ("refusing to overwrite existing replay bundle file: " ++ root ++ "/" ++ e.1)
      (root ++ "/" ++ e.1)))
  else .ok (files.insert e.1 e.2)

/-- Write files one after the other. Those before a refused one are written. -/
def writeFiles (root : String) (allowOverwrite : Bool) :
    List (String × String) → Dict String String →
      Except (BundleError × Dict String String) (Dict String String)
  | [], files => .ok files
  | e :: l, files =>
    match writeFile root allowOverwrite e files with
    | .error err => .error (err, files)
    | .ok files => writeFiles root allowOverwrite l files

/-- A line of the checksum file. -/
def sumLine (files : Dict String String) (name : String) : String :=
  sha256Hex ((files.get? name).getD "") ++ "  " ++ name

/-- The checksums over the payload files, as they stand in the directory. -/
def sumsText (files : Dict String String) : String :=
  "\n".intercalate (canonicalPayloadFiles.map (sumLine sha256Hex files)) ++ "\n"

def metadataDict (createdAt : String) (run : ReplayRun F) (digest : String) : PyData F :=
  record [("schema_version", .str "1"), ("created_at", .str createdAt),
    ("command", .str run.command), ("git_commit", .str run.gitCommit),
    ("canonical_payload_digest", .str digest)]

/-- Write the files of a bundle into a directory: the payload, then its checksums, then the
metadata. -/
def writeBundleFiles (root createdAt : String) (allowOverwrite : Bool) (run : ReplayRun F)
    (p : Payload) (files : Dict String String) :
    Except (BundleError × Dict String String) (Dict String String) := do
  let digest := sha256Hex (p.inputs ++ p.result ++ p.coverage)
  let files ← writeFiles root allowOverwrite p.files files
  let files ← writeFiles root allowOverwrite [("SHA256SUMS", sumsText sha256Hex files)] files
  match canonicalJsonBytes py (metadataDict createdAt run digest) with
  | .error e => .error (.raised e, files)
  | .ok metadata => writeFiles root allowOverwrite [("metadata.json", metadata)] files

/-- The outcome of writing into a directory. -/
def inDirectory : Except (BundleError × Dict String String) (Dict String String) →
    Except (BundleError × Location) Location
  | .ok files => .ok (.directory files)
  | .error e => .error (e.1, .directory e.2)

/-- Write a replay bundle under a path. An exception comes with what then stands there. -/
def writeReplayBundle (root createdAt : String) (allowOverwrite : Bool) (run : ReplayRun F)
    (place : Location) : Except (BundleError × Location) Location :=
  if !allowOverwrite && canonicalPayloadFiles.any fun name => (place.get? name).isSome then
    .error (.raised (.configError
      ("refusing to overwrite existing release/replay bundle: " ++ root) root), place)
  else
    match payload py sha256Hex run, place with
    | .error e, _ => .error (.raised e, place)
    | .ok _, .file => .error (.fileExists, place)
    | .ok p, .missing => inDirectory (writeBundleFiles py sha256Hex root createdAt
        allowOverwrite run p .empty)
    | .ok p, .directory files => inDirectory (writeBundleFiles py sha256Hex root createdAt
        allowOverwrite run p files)

/-! ### Reading -/

/-- Split a line of the checksum file at its first two spaces. -/
def splitSum : List Char → Option (List Char × List Char)
  | ' ' :: ' ' :: l => some ([], l)
  | c :: l => (splitSum l).map fun r => (c :: r.1, r.2)
  | [] => none

/-- The name and the digest of a line of the checksum file. -/
def parseSum (line : List Char) : Except Error (String × String) :=
  match splitSum line with
  | some (digest, name) => .ok (String.ofList name, String.ofList digest)
  | none => .error (.valueError "not enough values to unpack (expected 2, got 1)")

/-- The expected digests by the name of the file. -/
def expectedSums (text : String) : Except Error (Dict String String) :=
  ((splitLines (strip text.toList)).mapM parseSum).map Dict.ofList

/-- Check the digest of a file. -/
def checkSum (root : String) (files : Dict String String) (expected : Dict String String)
    (name : String) : Except Error Unit :=
  let actual := sha256Hex ((files.get? name).getD "")
  if expected.get? name = some actual then .ok ()
  else .error (.configError ("checksum mismatch for " ++ name ++ ": expected " ++
    (expected.get? name).getD "None" ++ ", got " ++ actual) (root ++ "/" ++ name))

/-- The member of a mapping under a key, a default if there is none; other values have no
members. -/
def getMember (a : PyData F) (key : String) (default : PyData F) :
    Except BundleError (PyData F) :=
  match a with
  | .dict l => .ok ((l.lookup (.str key)).getD default)
  | _ => .error .attributeError

/-- Whether a value is a certain string. -/
def isString (s : String) : PyData F → Bool
  | .str t => decide (t = s)
  | _ => false

/-- Load the texts of a file. -/
def loadFile (files : Dict String String) (name : String) : Except BundleError (PyData F) :=
  match files.get? name with
  | none => .error (.fileNotFound name)
  | some text => (jsonLoads float text).mapError .raised

/-- Read the files of a bundle and verify their digests. -/
def readBundleFiles (root : String) (files : Dict String String) :
    Except BundleError (ReplayBundle F) := do
  let missing := (canonicalPayloadFiles ++ ["SHA256SUMS"]).filter fun name =>
    !files.contains name
  if missing ≠ [] then
    .error (.raised (.configError ("replay bundle missing files: " ++ reprList missing) root))
  let inputs ← loadFile float files "inputs.json"
  let result ← loadFile float files "result.json"
  let coverage ← loadFile float files "coverage.json"
  let manifest ← loadFile float files "manifest.json"
  let expected ← (expectedSums ((files.get? "SHA256SUMS").getD "")).mapError .raised
  (canonicalPayloadFiles.forM (checkSum sha256Hex root files expected)).mapError .raised
  let actual := sha256Hex ((files.get? "inputs.json").getD "" ++
    (files.get? "result.json").getD "" ++ (files.get? "coverage.json").getD "")
  let digests ← getMember manifest "digests" (.dict [])
  let digest ← getMember digests "canonical_payload" .null
  if !isString actual digest then
    .error (.raised (.configError "canonical payload digest mismatch" (root ++ "/manifest.json")))
  let metadata ← loadFile float files "metadata.json"
  return { inputs, result, coverage, manifest, metadata }

/-- Read a replay bundle directory. -/
def readReplayBundle (root : String) (place : Location) : Except BundleError (ReplayBundle F) :=
  match place with
  | .directory files => readBundleFiles float sha256Hex root files
  | _ => .error (.raised (.configError
      ("replay bundle is not a directory: " ++ root) root))

/-! ### What a directory holds after writing -/

/-- What stands after a computation: its result, or what an exception has left. -/
def stateAfter {ε α : Type} : Except (ε × α) α → α
  | .ok a => a
  | .error e => e.2

variable {py float sha256Hex}

theorem writeFile_eq_ok {root : String} {allowOverwrite : Bool} {e : String × String}
    {files files' : Dict String String} :
    writeFile root allowOverwrite e files = .ok files' ↔
      (allowOverwrite = false → files.get? e.1 = none) ∧ files' = files.insert e.1 e.2 := by
  unfold writeFile
  cases allowOverwrite with
  | true => simp [eq_comm]
  | false =>
    cases hget : files.get? e.1 <;> simp [Dict.contains, hget, eq_comm]

/-- Each file of a list is written, and no other file changes. -/
theorem writeFiles_eq_ok {root : String} {allowOverwrite : Bool} {l : List (String × String)}
    (hnodup : (l.map Prod.fst).Nodup) {files files' : Dict String String}
    (h : writeFiles root allowOverwrite l files = .ok files') :
    (∀ e ∈ l, files'.get? e.1 = some e.2) ∧
      ∀ name ∉ l.map Prod.fst, files'.get? name = files.get? name := by
  induction l generalizing files with
  | nil =>
    cases h
    exact ⟨fun e he => absurd he List.not_mem_nil, fun _ _ => rfl⟩
  | cons e l ih =>
    rw [List.map_cons, List.nodup_cons] at hnodup
    rw [writeFiles] at h
    cases hwrite : writeFile root allowOverwrite e files with
    | error err => rw [hwrite] at h; cases h
    | ok written =>
      rw [hwrite] at h
      obtain ⟨hmem, hother⟩ := ih hnodup.2 h
      obtain ⟨-, rfl⟩ := writeFile_eq_ok.mp hwrite
      constructor
      · intro f hf
        rcases List.mem_cons.mp hf with rfl | hf
        · rw [hother _ hnodup.1, Dict.get?_insert, if_pos rfl]
        · exact hmem f hf
      · intro name hname
        rw [List.map_cons, List.mem_cons, not_or] at hname
        rw [hother name hname.2, Dict.get?_insert, if_neg hname.1]

theorem writeFiles_singleton {root : String} {allowOverwrite : Bool} {name text : String}
    {files files' : Dict String String}
    (h : writeFiles root allowOverwrite [(name, text)] files = .ok files') :
    files'.get? name = some text ∧ ∀ other ≠ name, files'.get? other = files.get? other := by
  obtain ⟨hmem, hother⟩ := writeFiles_eq_ok (l := [(name, text)]) (List.nodup_singleton name) h
  exact ⟨hmem _ (List.mem_singleton_self _), fun other hne => hother other (by simpa using hne)⟩

/-- Files that are not to be replaced are kept, whether all are written or one is refused. -/
theorem get?_writeFiles_of_some {root : String} {l : List (String × String)}
    {files : Dict String String} {name text : String} (h : files.get? name = some text) :
    (stateAfter (writeFiles root false l files)).get? name = some text := by
  induction l generalizing files with
  | nil => exact h
  | cons e l ih =>
    rw [writeFiles]
    cases hwrite : writeFile root false e files with
    | error err => exact h
    | ok files' =>
      obtain ⟨hnew, rfl⟩ := writeFile_eq_ok.mp hwrite
      refine ih ?_
      rw [Dict.get?_insert, if_neg, h]
      rintro rfl
      rw [hnew rfl] at h
      cases h

/-- Files that are not of the list keep their texts. -/
theorem get?_writeFiles_of_not_mem {root : String} {allowOverwrite : Bool}
    {l : List (String × String)} {files : Dict String String} {name : String}
    (h : name ∉ l.map Prod.fst) :
    (stateAfter (writeFiles root allowOverwrite l files)).get? name = files.get? name := by
  induction l generalizing files with
  | nil => rfl
  | cons e l ih =>
    rw [List.map_cons, List.mem_cons, not_or] at h
    rw [writeFiles]
    cases hwrite : writeFile root allowOverwrite e files with
    | error err => rfl
    | ok files' =>
      obtain ⟨-, rfl⟩ := writeFile_eq_ok.mp hwrite
      rw [ih h.2, Dict.get?_insert, if_neg h.1]

/-- What every step keeps is kept by their sequence, also if one of them fails. -/
theorem stateAfter_bind {ε α : Type} {P : α → Prop} {x : Except (ε × α) α}
    {f : α → Except (ε × α) α} (hx : P (stateAfter x)) (hf : ∀ a, P a → P (stateAfter (f a))) :
    P (stateAfter (x >>= f)) := by
  cases x with
  | error e => exact hx
  | ok a => exact hf a hx

/-- The files of a bundle. -/
def bundleFiles : List String := canonicalPayloadFiles ++ ["SHA256SUMS", "metadata.json"]

/-- What every file that the writer may write keeps, the directory of a bundle keeps. -/
theorem writeBundleFiles_keeps {root createdAt : String} {allowOverwrite : Bool}
    {run : ReplayRun F} {p : Payload} {files : Dict String String}
    {P : Dict String String → Prop} (hfiles : P files)
    (hwrite : ∀ l, (∀ e ∈ l, Prod.fst e ∈ bundleFiles) → ∀ files, P files →
      P (stateAfter (writeFiles root allowOverwrite l files))) :
    P (stateAfter
      (writeBundleFiles py sha256Hex root createdAt allowOverwrite run p files)) := by
  have hpayload : ∀ e ∈ p.files, e.1 ∈ bundleFiles := fun e he =>
    List.mem_append_left _ (List.mem_map_of_mem (f := Prod.fst) he)
  have hone : ∀ name ∈ bundleFiles, ∀ text : String, ∀ e ∈ [(name, text)],
      Prod.fst e ∈ bundleFiles := by
    intro name hname text e he
    rwa [List.mem_singleton.mp he]
  refine stateAfter_bind (hwrite _ hpayload _ hfiles) fun files' hfiles' => ?_
  refine stateAfter_bind (hwrite _ (hone "SHA256SUMS" (by decide) _) _ hfiles')
    fun files'' hfiles'' => ?_
  cases canonicalJsonBytes py (metadataDict createdAt run
      (sha256Hex (p.inputs ++ p.result ++ p.coverage))) with
  | error e => exact hfiles''
  | ok metadata => exact hwrite _ (hone "metadata.json" (by decide) _) _ hfiles''

theorem stateAfter_inDirectory (x : Except (BundleError × Dict String String) (Dict String String)) :
    stateAfter (inDirectory x) = .directory (stateAfter x) := by
  cases x <;> rfl

/-- What holds of the texts under a path, and every file that the writer may write keeps, the
writer keeps. -/
theorem writeReplayBundle_keeps {root createdAt : String} {allowOverwrite : Bool}
    {run : ReplayRun F} {place : Location} {P : (String → Option String) → Prop}
    (hplace : P place.get?)
    (hwrite : ∀ l, (∀ e ∈ l, Prod.fst e ∈ bundleFiles) → ∀ files, P files.get? →
      P (stateAfter (writeFiles root allowOverwrite l files)).get?) :
    P (stateAfter (writeReplayBundle py sha256Hex root createdAt allowOverwrite run place)).get? := by
  unfold writeReplayBundle
  split
  · exact hplace
  · cases payload py sha256Hex run with
    | error e => exact hplace
    | ok p =>
      have hdirectory : ∀ files : Dict String String, P files.get? →
          P (stateAfter (inDirectory (writeBundleFiles py sha256Hex root createdAt
            allowOverwrite run p files))).get? := by
        intro files hfiles
        rw [stateAfter_inDirectory]
        exact writeBundleFiles_keeps hfiles hwrite
      cases place with
      | file => exact hplace
      | missing => exact hdirectory .empty hplace
      | directory files => exact hdirectory files hplace

/-- The checksums depend on the payload files only. -/
theorem sumsText_congr {files files' : Dict String String}
    (h : ∀ name ∈ canonicalPayloadFiles, files'.get? name = files.get? name) :
    sumsText sha256Hex files' = sumsText sha256Hex files := by
  have hlines : canonicalPayloadFiles.map (sumLine sha256Hex files') =
      canonicalPayloadFiles.map (sumLine sha256Hex files) := by
    refine List.map_congr_left fun name hname => ?_
    rw [sumLine, sumLine, h name hname]
  rw [sumsText, sumsText, hlines]

/-- A complete bundle: the texts of a payload, their checksums, and metadata. -/
structure Written (sha256Hex : String → String) (p : Payload) (metadata : String)
    (files : Dict String String) : Prop where
  payload : ∀ e ∈ p.files, files.get? e.1 = some e.2
  sums : files.get? "SHA256SUMS" = some (sumsText sha256Hex files)
  metadata : files.get? "metadata.json" = some metadata

theorem writeBundleFiles_eq_ok {root createdAt : String} {allowOverwrite : Bool}
    {run : ReplayRun F} {p : Payload} {files files' : Dict String String}
    (h : writeBundleFiles py sha256Hex root createdAt allowOverwrite run p files = .ok files') :
    ∃ metadata, canonicalJsonBytes py (metadataDict createdAt run
        (sha256Hex (p.inputs ++ p.result ++ p.coverage))) = .ok metadata ∧
      Written sha256Hex p metadata files' := by
  obtain ⟨written, hpayload, h⟩ := bind_eq_ok.mp h
  obtain ⟨summed, hsums, h⟩ := bind_eq_ok.mp h
  have hnames : p.files.map Prod.fst = canonicalPayloadFiles := rfl
  have hp := writeFiles_eq_ok (by rw [hnames]; decide) hpayload
  have hs := writeFiles_singleton hsums
  cases htext : canonicalJsonBytes py (metadataDict createdAt run
      (sha256Hex (p.inputs ++ p.result ++ p.coverage))) with
  | error e => rw [htext] at h; cases h
  | ok metadata =>
    rw [htext] at h
    have hm := writeFiles_singleton h
    -- The later files leave the payload alone.
    have hkept : ∀ name ∈ canonicalPayloadFiles, files'.get? name = written.get? name := by
      intro name hname
      have hne : ∀ name ∈ canonicalPayloadFiles,
          name ≠ "SHA256SUMS" ∧ name ≠ "metadata.json" := by decide
      rw [hm.2 name (hne name hname).2, hs.2 name (hne name hname).1]
    refine ⟨metadata, rfl, ?_, ?_, hm.1⟩
    · intro e he
      rw [hkept _ (hnames ▸ List.mem_map_of_mem he), hp.1 e he]
    · rw [hm.2 _ (by decide), hs.1, sumsText_congr hkept]

theorem writeReplayBundle_eq_ok {root createdAt : String} {allowOverwrite : Bool}
    {run : ReplayRun F} {place place' : Location}
    (h : writeReplayBundle py sha256Hex root createdAt allowOverwrite run place = .ok place') :
    (allowOverwrite = false → ∀ name ∈ canonicalPayloadFiles, place.get? name = none) ∧
      ∃ p files' metadata, payload py sha256Hex run = .ok p ∧ place' = .directory files' ∧
        canonicalJsonBytes py (metadataDict createdAt run
          (sha256Hex (p.inputs ++ p.result ++ p.coverage))) = .ok metadata ∧
        Written sha256Hex p metadata files' := by
  unfold writeReplayBundle at h
  split at h
  · cases h
  · next hfree =>
    refine ⟨fun hallow name hname => ?_, ?_⟩
    · by_contra hsome
      refine hfree (Bool.and_eq_true_iff.mpr ⟨by rw [hallow]; rfl, List.any_eq_true.mpr
        ⟨name, hname, ?_⟩⟩)
      exact Option.isSome_iff_ne_none.mpr hsome
    · cases hp : payload py sha256Hex run with
      | error e => rw [hp] at h; cases h
      | ok p =>
        rw [hp] at h
        have hdirectory : ∀ files, inDirectory (writeBundleFiles py sha256Hex root createdAt
            allowOverwrite run p files) = .ok place' → ∃ files', place' = .directory files' ∧
              ∃ metadata, canonicalJsonBytes py (metadataDict createdAt run
                (sha256Hex (p.inputs ++ p.result ++ p.coverage))) = .ok metadata ∧
                Written sha256Hex p metadata files' := by
          intro files hfiles
          cases hwritten : writeBundleFiles py sha256Hex root createdAt allowOverwrite run p
              files with
          | error e => rw [hwritten] at hfiles; cases hfiles
          | ok files' =>
            rw [hwritten] at hfiles
            cases hfiles
            exact ⟨files', rfl, writeBundleFiles_eq_ok hwritten⟩
        cases place with
        | file => cases h
        | missing =>
          obtain ⟨files', hplace', metadata, hmetadata, hwritten⟩ := hdirectory _ h
          exact ⟨p, files', metadata, rfl, hplace', hmetadata, hwritten⟩
        | directory files =>
          obtain ⟨files', hplace', metadata, hmetadata, hwritten⟩ := hdirectory _ h
          exact ⟨p, files', metadata, rfl, hplace', hmetadata, hwritten⟩

/-! ### Never replacing files -/

theorem exists_writeFiles_eq_ok (root : String) {allowOverwrite : Bool}
    {l : List (String × String)} (hnodup : (l.map Prod.fst).Nodup) {files : Dict String String}
    (h : ∀ name ∈ l.map Prod.fst, files.get? name = none) :
    ∃ files', writeFiles root allowOverwrite l files = .ok files' := by
  induction l generalizing files with
  | nil => exact ⟨files, rfl⟩
  | cons e l ih =>
    rw [List.map_cons, List.nodup_cons] at hnodup
    rw [List.map_cons, List.forall_mem_cons] at h
    have hwrite : writeFile root allowOverwrite e files = .ok (files.insert e.1 e.2) :=
      writeFile_eq_ok.mpr ⟨fun _ => h.1, rfl⟩
    have hrest : ∀ name ∈ l.map Prod.fst, (files.insert e.1 e.2).get? name = none := by
      intro name hname
      rw [Dict.get?_insert, if_neg, h.2 name hname]
      rintro rfl
      exact hnodup.1 hname
    obtain ⟨files', hfiles'⟩ := ih hnodup.2 hrest
    exact ⟨files', by rw [writeFiles, hwrite]; exact hfiles'⟩

theorem writeFiles_singleton_isFree {root name text : String} {files files' : Dict String String}
    (h : writeFiles root false [(name, text)] files = .ok files') : files.get? name = none := by
  rw [writeFiles] at h
  cases hwrite : writeFile root false (name, text) files with
  | error e => rw [hwrite] at h; cases h
  | ok written => exact (writeFile_eq_ok.mp hwrite).1 rfl

/-- The texts of a run exist, since it is dumped to mappings. -/
theorem exists_payload_eq_ok (py : F → String) (sha256Hex : String → String)
    (run : ReplayRun F) : ∃ p, payload py sha256Hex run = .ok p := by
  have htext : ∀ l : List (DictKey × PyData F), ∃ text, canonicalJsonBytes py (.dict l) = .ok text :=
    fun l => ⟨_, canonicalJsonBytes_dict l⟩
  obtain ⟨inputs, hinputs⟩ := htext _
  obtain ⟨result, hresult⟩ := htext _
  obtain ⟨coverage, hcoverage⟩ := htext _
  obtain ⟨manifest, hmanifest⟩ := htext _
  exact ⟨{ inputs, result, coverage, manifest }, bind_eq_ok.mpr ⟨_, hinputs, bind_eq_ok.mpr
    ⟨_, hresult, bind_eq_ok.mpr ⟨_, hcoverage, bind_eq_ok.mpr ⟨_, hmanifest, rfl⟩⟩⟩⟩⟩

/-- The files of a bundle can be written into a directory without replacing files exactly when
none of them is there, apart from the payload files, which are looked for first. -/
theorem exists_writeBundleFiles_eq_ok {root createdAt : String} {run : ReplayRun F} {p : Payload}
    {files : Dict String String} (hfree : ∀ name ∈ canonicalPayloadFiles, files.get? name = none) :
    (∃ files', writeBundleFiles py sha256Hex root createdAt false run p files = .ok files') ↔
      ∀ name ∈ bundleFiles, files.get? name = none := by
  have hnames : p.files.map Prod.fst = canonicalPayloadFiles := rfl
  have hnodup : canonicalPayloadFiles.Nodup := by decide
  have hlast : "SHA256SUMS" ∉ canonicalPayloadFiles ∧ "metadata.json" ∉ canonicalPayloadFiles := by
    decide
  have hother : "metadata.json" ≠ "SHA256SUMS" := by decide
  obtain ⟨metadata, hmetadata⟩ : ∃ text, canonicalJsonBytes py (metadataDict createdAt run
      (sha256Hex (p.inputs ++ p.result ++ p.coverage))) = .ok text :=
    ⟨_, canonicalJsonBytes_dict _⟩
  have hbundle : (∀ name ∈ bundleFiles, files.get? name = none) ↔
      files.get? "SHA256SUMS" = none ∧ files.get? "metadata.json" = none := by
    simp only [bundleFiles, List.forall_mem_append, and_iff_right hfree, List.forall_mem_cons,
      List.not_mem_nil, false_imp_iff, implies_true, and_true]
  rw [hbundle]
  constructor
  · rintro ⟨files', h⟩
    obtain ⟨written, hpayload, h⟩ := bind_eq_ok.mp h
    obtain ⟨summed, hsums, h⟩ := bind_eq_ok.mp h
    have hp := writeFiles_eq_ok (hnames.symm ▸ hnodup) hpayload
    rw [hmetadata] at h
    have hfree₁ := writeFiles_singleton_isFree hsums
    have hfree₂ := writeFiles_singleton_isFree h
    rw [(writeFiles_singleton hsums).2 _ hother, hp.2 _ hlast.2] at hfree₂
    rw [hp.2 _ hlast.1] at hfree₁
    exact ⟨hfree₁, hfree₂⟩
  · rintro ⟨hfree₁, hfree₂⟩
    obtain ⟨written, hpayload⟩ := exists_writeFiles_eq_ok root (l := p.files)
      (hnames.symm ▸ hnodup) hfree
    have hp := writeFiles_eq_ok (hnames.symm ▸ hnodup) hpayload
    obtain ⟨summed, hsums⟩ := exists_writeFiles_eq_ok root
      (l := [("SHA256SUMS", sumsText sha256Hex written)]) (List.nodup_singleton _)
      (List.forall_mem_singleton.mpr ((hp.2 _ hlast.1).trans hfree₁))
    have hs := writeFiles_singleton hsums
    obtain ⟨files', hfiles'⟩ := exists_writeFiles_eq_ok root (l := [("metadata.json", metadata)])
      (List.nodup_singleton _) (List.forall_mem_singleton.mpr
        ((hs.2 _ hother).trans ((hp.2 _ hlast.2).trans hfree₂)))
    refine ⟨files', bind_eq_ok.mpr ⟨_, hpayload, bind_eq_ok.mpr ⟨_, hsums, ?_⟩⟩⟩
    rw [hmetadata]
    exact hfiles'

/-- The directory that the writer finds or creates under a path. -/
def Location.directory? : Location → Option (Dict String String)
  | .missing => some .empty
  | .file => none
  | .directory files => some files

theorem Location.get?_of_directory? {place : Location} {files : Dict String String}
    (h : place.directory? = some files) : place.get? = files.get? := by
  cases place with
  | missing => cases h; rfl
  | file => cases h
  | directory files' => cases h; rfl

theorem writeReplayBundle_of_directory {root createdAt : String} {allowOverwrite : Bool}
    {run : ReplayRun F} {place : Location} {files : Dict String String} {p : Payload}
    (hplace : place.directory? = some files) (hp : payload py sha256Hex run = .ok p)
    (hfree : allowOverwrite = false → ∀ name ∈ canonicalPayloadFiles, files.get? name = none) :
    writeReplayBundle py sha256Hex root createdAt allowOverwrite run place =
      inDirectory (writeBundleFiles py sha256Hex root createdAt allowOverwrite run p files) := by
  unfold writeReplayBundle
  split
  · next h =>
    rw [Bool.and_eq_true, List.any_eq_true, Bool.not_eq_true'] at h
    obtain ⟨hallow, name, hname, hsome⟩ := h
    rw [Location.get?_of_directory? hplace, hfree hallow name hname] at hsome
    cases hsome
  · rw [hp]
    cases place with
    | file => cases hplace
    | missing => cases hplace; rfl
    | directory files' => cases hplace; rfl

/-- Without leave to overwrite, a bundle is written exactly where a directory can be and none of
its files is. -/
theorem exists_writeReplayBundle_eq_ok {root createdAt : String} {run : ReplayRun F}
    {place : Location} :
    (∃ place', writeReplayBundle py sha256Hex root createdAt false run place = .ok place') ↔
      place ≠ .file ∧ ∀ name ∈ bundleFiles, place.get? name = none := by
  obtain ⟨p, hp⟩ := exists_payload_eq_ok py sha256Hex run
  have hpayload : ∀ name ∈ canonicalPayloadFiles, name ∈ bundleFiles := fun name hname =>
    List.mem_append_left _ hname
  have houtcome : ∀ files, (∃ place', inDirectory (writeBundleFiles py sha256Hex root createdAt
      false run p files) = .ok place') ↔
        ∃ files', writeBundleFiles py sha256Hex root createdAt false run p files = .ok files' := by
    intro files
    cases writeBundleFiles py sha256Hex root createdAt false run p files with
    | error e => exact iff_of_false (by rintro ⟨_, h⟩; cases h) (by rintro ⟨_, h⟩; cases h)
    | ok files' => exact iff_of_true ⟨_, rfl⟩ ⟨_, rfl⟩
  constructor
  · rintro ⟨place', h⟩
    have hfree := (writeReplayBundle_eq_ok h).1 rfl
    cases hplace : place.directory? with
    | none =>
      cases place with
      | file =>
        unfold writeReplayBundle at h
        rw [hp] at h
        split at h <;> cases h
      | missing => cases hplace
      | directory files => cases hplace
    | some files =>
      rw [Location.get?_of_directory? hplace] at hfree ⊢
      rw [writeReplayBundle_of_directory hplace hp fun _ => hfree] at h
      refine ⟨?_, (exists_writeBundleFiles_eq_ok hfree).mp ((houtcome files).mp ⟨place', h⟩)⟩
      rintro rfl
      cases hplace
  · rintro ⟨hne, hfree⟩
    cases hplace : place.directory? with
    | none => cases place <;> first | exact absurd rfl hne | cases hplace
    | some files =>
      rw [Location.get?_of_directory? hplace] at hfree
      have hfree' : ∀ name ∈ canonicalPayloadFiles, files.get? name = none := fun name hname =>
        hfree name (hpayload name hname)
      rw [writeReplayBundle_of_directory hplace hp fun _ => hfree', houtcome]
      exact (exists_writeBundleFiles_eq_ok hfree').mpr hfree

/-- Whether it succeeds or fails, the writer changes no file besides those of a bundle, and
without leave to overwrite it changes no file at all; it then succeeds exactly where a directory
can be and no file of a bundle is. -/
theorem writeReplayBundle_preserves (py : F → String) (sha256Hex : String → String)
    (root createdAt : String) (allowOverwrite : Bool) (run : ReplayRun F) (place : Location) :
    (∀ name ∉ bundleFiles, (stateAfter (writeReplayBundle py sha256Hex root createdAt
      allowOverwrite run place)).get? name = place.get? name) ∧
    (∀ name text, place.get? name = some text → (stateAfter (writeReplayBundle py sha256Hex root
      createdAt false run place)).get? name = some text) ∧
    ((∃ place', writeReplayBundle py sha256Hex root createdAt false run place = .ok place') ↔
      place ≠ .file ∧ ∀ name ∈ bundleFiles, place.get? name = none) := by
  refine ⟨fun name hname => ?_, fun name text hsome => ?_, exists_writeReplayBundle_eq_ok⟩
  · refine writeReplayBundle_keeps (P := fun get? => get? name = place.get? name) rfl ?_
    intro l hl files hfiles
    refine (get?_writeFiles_of_not_mem fun hmem => ?_).trans hfiles
    obtain ⟨e, he, rfl⟩ := List.mem_map.mp hmem
    exact hname (hl e he)
  · exact writeReplayBundle_keeps (P := fun get? => get? name = some text) hsome
      fun l _ files hfiles => get?_writeFiles_of_some hfiles

end Bundle

end Dse

end NpuArc
