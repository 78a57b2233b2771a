import NpuArc.Dse.ReplayBundle
import NpuArc.Library.JsonTexts

/-!
# Reading replay bundles

The checksum file is parsed line by line, so digests of hexadecimal digits are found again
under their names, and a bundle that has been written passes every check of the reader. What
the reader returns is what the canonical texts hold.
-/

namespace NpuArc

namespace Dse

open PyData

/-- Digests are written in hexadecimal digits, of which there is at least one. -/
structure HexDigests (sha256Hex : String → String) : Prop where
  ne_nil : ∀ s, (sha256Hex s).toList ≠ []
  hex : ∀ s, ∀ c ∈ (sha256Hex s).toList, c ∈ "0123456789abcdef".toList

variable {F : Type} {py : F → String} {float : String → F} {sha256Hex : String → String}

/-! ### The checksum file -/

theorem hexDigit_of_mem {c : Char} (h : c ∈ "0123456789abcdef".toList) :
    isSpace c = false ∧ isLineBreak c = false ∧ c ≠ ' ' := by
  have hall : ("0123456789abcdef".toList.all fun c =>
      !isSpace c && (!isLineBreak c && c != ' ')) = true := by decide
  have hc := List.all_eq_true.mp hall c h
  rwa [Bool.and_eq_true, Bool.and_eq_true, Bool.not_eq_true', Bool.not_eq_true', bne_iff_ne] at hc

/-- A line is split behind its digest. -/
theorem splitSum_append {digest : List Char} (h : ∀ c ∈ digest, c ≠ ' ') (name : List Char) :
    splitSum (digest ++ ' ' :: ' ' :: name) = some (digest, name) := by
  induction digest with
  | nil => rfl
  | cons c digest ih =>
    obtain ⟨hc, hdigest⟩ := List.forall_mem_cons.mp h
    have hstep : ∀ l, splitSum (c :: l) = (splitSum l).map fun r => (c :: r.1, r.2) := by
      intro l
      rw [splitSum]
      rintro l' rfl -
      exact hc rfl
    rw [List.cons_append, hstep, ih hdigest, Option.map_some]

/-- The text of a list of lines is split into these lines. -/
theorem splitLines_intercalate {l : List (List Char)}
    (hbreak : ∀ line ∈ l, ∀ c ∈ line, isLineBreak c = false) (hne : ∀ line ∈ l, line ≠ []) :
    splitLines ([Char.ofNat 10].intercalate l) = l := by
  induction l with
  | nil => rfl
  | cons line l ih =>
    obtain ⟨hline, hrest⟩ := List.forall_mem_cons.mp hbreak
    obtain ⟨hline', hrest'⟩ := List.forall_mem_cons.mp hne
    cases l with
    | nil => rw [List.intercalate_singleton, splitLines_of_no_break hline hline']
    | cons line' l =>
      rw [List.intercalate_cons_cons, List.append_assoc, List.singleton_append,
        splitLines_append hline, ih hrest hrest']

theorem toList_sumLine (files : Dict String String) (name : String) :
    (sumLine sha256Hex files name).toList =
      (sha256Hex ((files.get? name).getD "")).toList ++ ' ' :: ' ' :: name.toList := by
  rw [sumLine, String.toList_append, String.toList_append, List.append_assoc]
  rfl

/-- The name of a payload file holds no break, and no white space at its end. -/
theorem payloadFile_spec {name : String} (h : name ∈ canonicalPayloadFiles) :
    (∀ c ∈ name.toList, isLineBreak c = false) ∧ name.toList ≠ [] ∧
      ∀ c ∈ name.toList.getLast?, isSpace c = false := by
  have hall : (canonicalPayloadFiles.all fun name => name.toList.all (!isLineBreak ·) &&
      (!name.toList.isEmpty && name.toList.getLast?.all (!isSpace ·))) = true := by decide
  have hname := List.all_eq_true.mp hall name h
  rw [Bool.and_eq_true, Bool.and_eq_true] at hname
  obtain ⟨hbreak, hne, hlast⟩ := hname
  refine ⟨fun c hc => ?_, fun hnil => ?_, fun c hc => ?_⟩
  · exact (Bool.not_eq_true' _).mp (List.all_eq_true.mp hbreak c hc)
  · rw [hnil] at hne
    cases hne
  · exact (Bool.not_eq_true' _).mp ((Option.all_eq_true _ _).mp hlast c hc)

/-- A line of the checksum file holds no break, and no white space at its ends. -/
theorem sumLine_spec (h : HexDigests sha256Hex) (files : Dict String String) {name : String}
    (hname : name ∈ canonicalPayloadFiles) :
    (∀ c ∈ (sumLine sha256Hex files name).toList, isLineBreak c = false) ∧
      (sumLine sha256Hex files name).toList ≠ [] ∧
      (∀ c ∈ (sumLine sha256Hex files name).toList.head?, isSpace c = false) ∧
      ∀ c ∈ (sumLine sha256Hex files name).toList.getLast?, isSpace c = false := by
  obtain ⟨hbreak, hne, hlast⟩ := payloadFile_spec hname
  have hdigest := h.ne_nil ((files.get? name).getD "")
  rw [toList_sumLine]
  refine ⟨?_, fun hnil => hdigest (List.append_eq_nil_iff.mp hnil).1, ?_, ?_⟩
  · intro c hc
    rcases List.mem_append.mp hc with hc | hc
    · exact (hexDigit_of_mem (h.hex _ c hc)).2.1
    · rcases List.mem_cons.mp hc with rfl | hc
      · rfl
      · rcases List.mem_cons.mp hc with rfl | hc
        · rfl
        · exact hbreak c hc
  · intro c hc
    rw [List.head?_append_of_ne_nil _ hdigest] at hc
    exact (hexDigit_of_mem (h.hex _ c (List.mem_of_mem_head? hc))).1
  · intro c hc
    rw [List.append_cons, List.append_cons, List.getLast?_append_of_ne_nil _ hne] at hc
    exact hlast c hc

/-- Joined lines without white space at their ends have none either. -/
theorem bounds_intercalate {l : List (List Char)} (hne : ∀ line ∈ l, line ≠ [])
    (hhead : ∀ line ∈ l, ∀ c ∈ line.head?, isSpace c = false)
    (hlast : ∀ line ∈ l, ∀ c ∈ line.getLast?, isSpace c = false) :
    (∀ c ∈ ([Char.ofNat 10].intercalate l).head?, isSpace c = false) ∧
      ∀ c ∈ ([Char.ofNat 10].intercalate l).getLast?, isSpace c = false := by
  induction l with
  | nil => simp
  | cons line l ih =>
    rw [List.forall_mem_cons] at hne hhead hlast
    cases l with
    | nil =>
      rw [List.intercalate_singleton]
      exact ⟨hhead.1, hlast.1⟩
    | cons line' l =>
      have hrest := ih hne.2 hhead.2 hlast.2
      have hjoined : [Char.ofNat 10].intercalate (line' :: l) ≠ [] := by
        cases l with
        | nil => rw [List.intercalate_singleton]; exact hne.2 _ List.mem_cons_self
        | cons line'' l =>
          rw [List.intercalate_cons_cons]
          exact List.append_ne_nil_of_left_ne_nil (List.append_ne_nil_of_left_ne_nil
            (hne.2 _ List.mem_cons_self) _) _
      rw [List.intercalate_cons_cons, List.append_assoc, List.head?_append_of_ne_nil _ hne.1,
        ← List.append_assoc, List.getLast?_append_of_ne_nil _ hjoined]
      exact ⟨hhead.1, hrest.2⟩

/-- The digests of the payload files are found in the checksum file under their names. -/
theorem expectedSums_sumsText (h : HexDigests sha256Hex) (files : Dict String String) :
    expectedSums (sumsText sha256Hex files) = .ok (Dict.ofList (canonicalPayloadFiles.map
      fun name => (name, sha256Hex ((files.get? name).getD "")))) := by
  have hlines : splitLines (strip (sumsText sha256Hex files).toList) =
      canonicalPayloadFiles.map fun name => (sumLine sha256Hex files name).toList := by
    have hspec : ∀ line ∈ canonicalPayloadFiles.map fun name =>
        (sumLine sha256Hex files name).toList, (∀ c ∈ line, isLineBreak c = false) ∧ line ≠ [] ∧
          (∀ c ∈ line.head?, isSpace c = false) ∧ ∀ c ∈ line.getLast?, isSpace c = false := by
      intro line hline
      obtain ⟨name, hname, rfl⟩ := List.mem_map.mp hline
      exact sumLine_spec h files hname
    have hbounds := bounds_intercalate (fun line hline => (hspec line hline).2.1)
      (fun line hline => (hspec line hline).2.2.1) fun line hline => (hspec line hline).2.2.2
    have htext : (sumsText sha256Hex files).toList = [Char.ofNat 10].intercalate
        (canonicalPayloadFiles.map fun name => (sumLine sha256Hex files name).toList) ++
          [Char.ofNat 10] := by
      rw [sumsText, String.toList_append, String.toList_intercalate, List.map_map]
      rfl
    rw [htext, strip_append_spaces (List.forall_mem_singleton.mpr rfl),
      strip_of_bounds hbounds.1 hbounds.2,
      splitLines_intercalate (fun line hline => (hspec line hline).1)
        fun line hline => (hspec line hline).2.1]
  have hparse : ∀ names : List String, (names.map fun name =>
      (sumLine sha256Hex files name).toList).mapM parseSum = .ok (names.map fun name =>
        (name, sha256Hex ((files.get? name).getD ""))) := by
    intro names
    induction names with
    | nil => rfl
    | cons name names ih =>
      have hsplit := splitSum_append
        (fun c hc => (hexDigit_of_mem (h.hex ((files.get? name).getD "") c hc)).2.2) name.toList
      have hone : parseSum (sumLine sha256Hex files name).toList =
          .ok (name, sha256Hex ((files.get? name).getD "")) := by
        rw [parseSum, toList_sumLine, hsplit]
        dsimp only
        rw [String.ofList_toList, String.ofList_toList]
      rw [List.map_cons, List.mapM_cons, hone, bind_eq_ok_left, ih]
      rfl
  rw [expectedSums, hlines, hparse]
  rfl

/-- Every payload file has the digest that stands in the checksum file. -/
theorem checkSums_eq_ok (root : String) (files : Dict String String) :
    canonicalPayloadFiles.forM (checkSum sha256Hex root files (Dict.ofList
      (canonicalPayloadFiles.map fun name => (name, sha256Hex ((files.get? name).getD ""))))) =
        .ok () := by
  have hnames : (canonicalPayloadFiles.map fun name =>
      (name, sha256Hex ((files.get? name).getD ""))).map Prod.fst = canonicalPayloadFiles := rfl
  refine forM_eq_ok.mpr fun name hname => ?_
  have hget := Dict.get?_ofList_of_mem (l := canonicalPayloadFiles.map
    fun name => (name, sha256Hex ((files.get? name).getD "")))
      (by rw [hnames]; decide) (List.mem_map_of_mem hname)
  rw [checkSum, if_pos hget]

/-! ### The values -/

theorem payload_eq_ok {run : ReplayRun F} {p : Payload} :
    payload py sha256Hex run = .ok p ↔ canonicalJsonBytes py run.inputsDict = .ok p.inputs ∧
      canonicalJsonBytes py run.resultDict = .ok p.result ∧
      canonicalJsonBytes py run.coverageDict = .ok p.coverage ∧
      canonicalJsonBytes py (manifestDict (digestsOf sha256Hex p.inputs p.result p.coverage)
        run.points.length) = .ok p.manifest := by
  unfold payload
  constructor
  · intro h
    obtain ⟨inputs, hinputs, h⟩ := bind_eq_ok.mp h
    obtain ⟨result, hresult, h⟩ := bind_eq_ok.mp h
    obtain ⟨coverage, hcoverage, h⟩ := bind_eq_ok.mp h
    obtain ⟨manifest, hmanifest, h⟩ := bind_eq_ok.mp h
    cases h
    exact ⟨hinputs, hresult, hcoverage, hmanifest⟩
  · rintro ⟨hinputs, hresult, hcoverage, hmanifest⟩
    rw [hinputs, bind_eq_ok_left, hresult, bind_eq_ok_left, hcoverage, bind_eq_ok_left]
    dsimp only
    rw [hmanifest]
    rfl

theorem getMember_readBack {l : List (String × PyData F)} (hnodup : (l.map Prod.fst).Nodup)
    {key : String} {a : PyData F} (h : l.lookup key = some a) (default : PyData F) :
    getMember (readBack float py (record l)) key default = .ok (readBack float py a) := by
  rw [record, readBack_dict, ofMembers, getMember, lookup_str,
    get?_membersBack_record float py hnodup, h]
  rfl

theorem digests_readBack (digests : Digests) (n : ℕ) :
    getMember (readBack float py (manifestDict digests n)) "digests" (.dict []) =
      .ok (readBack float py (record digests.fields)) := by
  have hkeys : (manifestFields (F := F) digests n).map Prod.fst =
      ["schema_version", "payload_files", "digests", "design_point_count"] := rfl
  exact getMember_readBack (by rw [hkeys]; decide) rfl _

theorem canonicalPayload_readBack (digests : Digests) :
    getMember (readBack float py (record digests.fields)) "canonical_payload" .null =
      .ok (.str digests.canonicalPayload) := by
  have hkeys : (digests.fields (F := F)).map Prod.fst =
      ["inputs", "result", "coverage", "canonical_payload"] := rfl
  have hback : readBack float py (.str digests.canonicalPayload) =
      .str digests.canonicalPayload := readBack_str _
  rw [← hback]
  exact getMember_readBack (by rw [hkeys]; decide) rfl _

theorem mapError_ok {ε ε' α : Type} (f : ε → ε') (a : α) :
    (Except.ok a : Except ε α).mapError f = .ok a := rfl

theorem loadFile_eq_ok {files : Dict String String} {name text : String} {a : PyData F}
    (hfile : files.get? name = some text) (htext : canonicalJsonBytes py a = .ok text) :
    loadFile float files name = .ok (readBack float py a) := by
  rw [loadFile, hfile]
  dsimp only
  rw [jsonLoads_canonicalJsonBytes float htext]
  rfl

/-- The reader accepts a complete bundle, and returns what comes back of each part. -/
theorem readBundleFiles_of_written (float : String → F) (h : HexDigests sha256Hex)
    {run : ReplayRun F} {p : Payload}
    {metadata : String} {metadataValue : PyData F} {files : Dict String String} (root : String)
    (hpayload : payload py sha256Hex run = .ok p)
    (hmetadata : canonicalJsonBytes py metadataValue = .ok metadata)
    (hfiles : Written sha256Hex p metadata files) :
    readBundleFiles float sha256Hex root files = .ok
      { inputs := readBack float py run.inputsDict
        result := readBack float py run.resultDict
        coverage := readBack float py run.coverageDict
        manifest := readBack float py (manifestDict
          (digestsOf sha256Hex p.inputs p.result p.coverage) run.points.length)
        metadata := readBack float py metadataValue } := by
  obtain ⟨hinputs, hresult, hcoverage, hmanifest⟩ := payload_eq_ok.mp hpayload
  have hfile := hfiles.payload
  rw [Payload.files, List.forall_mem_cons, List.forall_mem_cons, List.forall_mem_cons,
    List.forall_mem_singleton] at hfile
  obtain ⟨hfile₁, hfile₂, hfile₃, hfile₄⟩ := hfile
  have hactual : isString (sha256Hex ((files.get? "inputs.json").getD "" ++
      (files.get? "result.json").getD "" ++ (files.get? "coverage.json").getD ""))
      (.str (digestsOf sha256Hex p.inputs p.result p.coverage).canonicalPayload : PyData F) =
        true := by
    rw [hfile₁, hfile₂, hfile₃]
    exact decide_eq_true rfl
  have hcontains : ∀ {name text : String}, files.get? name = some text →
      files.contains name = true := fun hget => by rw [Dict.contains, hget]; rfl
  have hmissing : ((canonicalPayloadFiles ++ ["SHA256SUMS"]).filter fun name =>
      !files.contains name) = [] := by
    simp [canonicalPayloadFiles, hcontains hfile₁, hcontains hfile₂, hcontains hfile₃,
      hcontains hfile₄, hcontains hfiles.sums]
  rw [readBundleFiles, hmissing]
  simp only [ne_eq, not_true_eq_false, if_false]
  rw [loadFile_eq_ok hfile₁ hinputs, bind_eq_ok_left, loadFile_eq_ok hfile₂ hresult,
    bind_eq_ok_left, loadFile_eq_ok hfile₃ hcoverage, bind_eq_ok_left,
    loadFile_eq_ok hfile₄ hmanifest, bind_eq_ok_left, hfiles.sums, Option.getD_some,
    expectedSums_sumsText h, mapError_ok, bind_eq_ok_left, checkSums_eq_ok, mapError_ok,
    bind_eq_ok_left, digests_readBack, bind_eq_ok_left, canonicalPayload_readBack,
    bind_eq_ok_left, hactual, if_neg (by simp), loadFile_eq_ok hfiles.metadata hmetadata]
  rfl

/-! ### The round trip -/

theorem plain_record_iff {l : List (String × PyData F)} :
    (record l).Plain ↔ ∀ e ∈ l, (Prod.snd e).Plain := by
  constructor
  · intro h e he
    cases h with
    | dict _ h => exact h _ (List.mem_map_of_mem he)
  · intro h
    refine .dict (fun e he => ?_) fun e he => ?_
    · obtain ⟨e', -, rfl⟩ := List.mem_map.mp he
      exact ⟨e'.1, rfl⟩
    · obtain ⟨e', he', rfl⟩ := List.mem_map.mp he
      exact h e' he'

theorem proper_record {l : List (String × PyData F)} (names : List String)
    (hnames : l.map Prod.fst = names) (hnodup : names.Nodup)
    (h : ∀ e ∈ l, (Prod.snd e).Proper) : (record l).Proper := by
  subst hnames
  have hinj := hnodup.map (f := DictKey.str) fun s t h => DictKey.str.inj h
  rw [List.map_map] at hinj
  refine .dict (by rwa [List.map_map]) fun e he => ?_
  obtain ⟨e', he', rfl⟩ := List.mem_map.mp he
  exact h e' he'

theorem plain_list_iff {l : List (PyData F)} : (PyData.list l).Plain ↔ ∀ a ∈ l, a.Plain := by
  constructor
  · intro h
    cases h with
    | list h => exact h
  · exact .list

theorem plain_optionalData (s : Option String) : (optionalData s : PyData F).Plain := by
  cases s with
  | none => exact .null
  | some s => exact .str s

theorem proper_optionalData (s : Option String) : (optionalData s : PyData F).Proper := by
  cases s with
  | none => exact .null
  | some s => exact .str s

namespace ReplayRun

/-- The mappings of a run have each key once, as mappings of Python do. -/
structure Proper (run : ReplayRun F) : Prop where
  scenario : run.scenarioDict.Proper
  axes : run.axesDict.Proper
  runConfig : run.runConfig.Proper
  axisValues : ∀ p ∈ run.points, (ofMembers p.axisValues).Proper
  hardwareConfig : ∀ p ∈ run.points, p.hardwareConfig.Proper
  result : run.resultDict.Proper
  coverage : run.coverageDict.Proper

/-- Nothing of a run holds a float, a tuple or an integer key. -/
structure Plain (run : ReplayRun F) : Prop where
  scenario : run.scenarioDict.Plain
  axes : run.axesDict.Plain
  runConfig : run.runConfig.Plain
  axisValues : ∀ p ∈ run.points, (ofMembers p.axisValues).Plain
  hardwareConfig : ∀ p ∈ run.points, p.hardwareConfig.Plain
  result : run.resultDict.Plain
  coverage : run.coverageDict.Plain

theorem plain_designPointDict_iff (p : DesignPoint (PyData F) (PyData F)) :
    (designPointDict p).Plain ↔ (ofMembers p.axisValues).Plain ∧ p.hardwareConfig.Plain := by
  rw [designPointDict, plain_record_iff]
  constructor
  · intro h
    exact ⟨h ("axis_values", ofMembers p.axisValues) (by simp),
      h ("hardware_config", p.hardwareConfig) (by simp)⟩
  · rintro ⟨haxes, hhardware⟩ e he
    simp only [List.mem_cons, List.not_mem_nil, or_false] at he
    rcases he with rfl | rfl | rfl | rfl | rfl
    · exact .str _
    · exact .str _
    · exact plain_optionalData _
    · exact haxes
    · exact hhardware

theorem proper_designPointDict {p : DesignPoint (PyData F) (PyData F)}
    (haxes : (ofMembers p.axisValues).Proper) (hhardware : p.hardwareConfig.Proper) :
    (designPointDict p).Proper := by
  refine proper_record ["design_point_id", "scenario_ref", "workload_ref", "axis_values",
    "hardware_config"] rfl (by decide) fun e he => ?_
  simp only [List.mem_cons, List.not_mem_nil, or_false] at he
  rcases he with rfl | rfl | rfl | rfl | rfl
  · exact .str _
  · exact .str _
  · exact proper_optionalData _
  · exact haxes
  · exact hhardware

/-- The three mappings of a run are plain if its parts are. -/
theorem plain_iff (run : ReplayRun F) : run.Plain ↔
    run.inputsDict.Plain ∧ run.resultDict.Plain ∧ run.coverageDict.Plain := by
  constructor
  · intro h
    refine ⟨plain_record_iff.mpr fun e he => ?_, h.result, h.coverage⟩
    simp only [List.mem_cons, List.not_mem_nil, or_false] at he
    rcases he with rfl | rfl | rfl | rfl | rfl | rfl
    · exact .str _
    · exact h.scenario
    · exact h.axes
    · exact .int _
    · exact h.runConfig
    · refine plain_list_iff.mpr fun a ha => ?_
      obtain ⟨p, hp, rfl⟩ := List.mem_map.mp ha
      exact (plain_designPointDict_iff p).mpr ⟨h.axisValues p hp, h.hardwareConfig p hp⟩
  · rintro ⟨hinputs, hresult, hcoverage⟩
    have hfield := plain_record_iff.mp hinputs
    have hpoints := plain_list_iff.mp
      (hfield ("design_points", .list (run.points.map designPointDict)) (by simp))
    have hpoint : ∀ p ∈ run.points, (ofMembers p.axisValues).Plain ∧ p.hardwareConfig.Plain :=
      fun p hp => (plain_designPointDict_iff p).mp (hpoints _ (List.mem_map_of_mem hp))
    exact
      { scenario := hfield ("scenario", _) (by simp)
        axes := hfield ("axes", _) (by simp)
        runConfig := hfield ("run_config", _) (by simp)
        axisValues := fun p hp => (hpoint p hp).1
        hardwareConfig := fun p hp => (hpoint p hp).2
        result := hresult
        coverage := hcoverage }

theorem Proper.inputsDict {run : ReplayRun F} (h : run.Proper) : run.inputsDict.Proper := by
  refine proper_record ["schema_version", "scenario", "axes", "seed", "run_config",
    "design_points"] rfl (by decide) fun e he => ?_
  simp only [List.mem_cons, List.not_mem_nil, or_false] at he
  rcases he with rfl | rfl | rfl | rfl | rfl | rfl
  · exact .str _
  · exact h.scenario
  · exact h.axes
  · exact .int _
  · exact h.runConfig
  · refine .list fun a ha => ?_
    obtain ⟨p, hp, rfl⟩ := List.mem_map.mp ha
    exact proper_designPointDict (h.axisValues p hp) (h.hardwareConfig p hp)

end ReplayRun

/-- What is read under a path equals the inputs, the result and the coverage of a run. -/
def Replays (float : String → F) (sha256Hex : String → String) (root : String)
    (run : ReplayRun F) (place : Location) : Prop :=
  ∃ bundle, readReplayBundle float sha256Hex root place = .ok bundle ∧
    bundle.inputs.Same run.inputsDict ∧ bundle.result.Same run.resultDict ∧
    bundle.coverage.Same run.coverageDict

/-- The reader accepts what the writer has written. -/
theorem readReplayBundle_of_written (float : String → F) (h : HexDigests sha256Hex) {root createdAt : String}
    {allowOverwrite : Bool} {run : ReplayRun F} {place place' : Location}
    (hwrite : writeReplayBundle py sha256Hex root createdAt allowOverwrite run place =
      .ok place') : ∃ bundle, readReplayBundle float sha256Hex root place' = .ok bundle ∧
      bundle.inputs = readBack float py run.inputsDict ∧
      bundle.result = readBack float py run.resultDict ∧
      bundle.coverage = readBack float py run.coverageDict := by
  obtain ⟨-, p, files', metadata, hpayload, rfl, hmetadata, hwritten⟩ :=
    writeReplayBundle_eq_ok hwrite
  exact ⟨_, readBundleFiles_of_written float h root hpayload hmetadata hwritten, rfl, rfl, rfl⟩

private theorem replays_iff_plain (h : HexDigests sha256Hex) {root createdAt : String}
    {allowOverwrite : Bool} {run : ReplayRun F} {place place' : Location} (hrun : run.Proper)
    (hwrite : writeReplayBundle py sha256Hex root createdAt allowOverwrite run place =
      .ok place') : Replays float sha256Hex root run place' ↔ run.Plain := by
  obtain ⟨bundle, hread, hinputs, hresult, hcoverage⟩ :=
    readReplayBundle_of_written float h hwrite
  rw [run.plain_iff, ← same_readBack_iff float py hrun.inputsDict,
    ← same_readBack_iff float py hrun.result, ← same_readBack_iff float py hrun.coverage,
    ← hinputs, ← hresult, ← hcoverage]
  constructor
  · rintro ⟨bundle', hread', hsame⟩
    rw [hread] at hread'
    cases hread'
    exact hsame
  · exact fun hsame => ⟨bundle, hread, hsame⟩

/-- The SHA-256 digests of the texts of the run below. -/
def sampleDigest (s : String) : String :=
  if s.length = 107 then "a84b96b87036fd8f0e7fa8c6e7a0f5bba117b74dbf1deca014a6e25937c58436"
  else if s.length = 269 then "12f2209a86a09fa6e52ecb3fb243ea4911afa57a6cb747ada14af5a46c54f53e"
  else if s.length = 127 then "e84dacc168b6239b94ab956e35bee566492bbc74bb065d091b32ffd5b15df1e3"
  else if s.length = 503 then "be76bb1adc6b6d92aacd4e2bdfeb13e71029ed61f10fc9d5c1191b08f98e07ea"
  else "2e7442a1d499f071f589db24624dff0ffb4a195a70ea433836d3c390875dcdaf"

theorem hexDigests_sampleDigest : HexDigests sampleDigest := by
  have hcase : ∀ s, sampleDigest s ∈
      ["a84b96b87036fd8f0e7fa8c6e7a0f5bba117b74dbf1deca014a6e25937c58436",
        "12f2209a86a09fa6e52ecb3fb243ea4911afa57a6cb747ada14af5a46c54f53e",
        "e84dacc168b6239b94ab956e35bee566492bbc74bb065d091b32ffd5b15df1e3",
        "be76bb1adc6b6d92aacd4e2bdfeb13e71029ed61f10fc9d5c1191b08f98e07ea",
        "2e7442a1d499f071f589db24624dff0ffb4a195a70ea433836d3c390875dcdaf"] := by
    intro s
    unfold sampleDigest
    split_ifs <;> simp
  have hall : (
      ["a84b96b87036fd8f0e7fa8c6e7a0f5bba117b74dbf1deca014a6e25937c58436",
        "12f2209a86a09fa6e52ecb3fb243ea4911afa57a6cb747ada14af5a46c54f53e",
        "e84dacc168b6239b94ab956e35bee566492bbc74bb065d091b32ffd5b15df1e3",
        "be76bb1adc6b6d92aacd4e2bdfeb13e71029ed61f10fc9d5c1191b08f98e07ea",
        "2e7442a1d499f071f589db24624dff0ffb4a195a70ea433836d3c390875dcdaf"].all fun digest =>
      !digest.toList.isEmpty && digest.toList.all ("0123456789abcdef".toList.contains ·)) =
        true := by decide +kernel
  have hdigest := fun s => Bool.and_eq_true _ _ ▸ List.all_eq_true.mp hall _ (hcase s)
  refine ⟨fun s hnil => ?_, fun s c hc => ?_⟩
  · have hne := (hdigest s).1
    rw [hnil] at hne
    cases hne
  · exact List.contains_iff_mem.mp (List.all_eq_true.mp (hdigest s).2 c hc)

/-- A run over no points whose configuration holds a fraction of a second, with the dumps of an
empty result set and of a manifest without axes. -/
def timeoutRun : ReplayRun ℚ where
  scenarioDict := .dict []
  axesDict := .dict []
  seed := 0
  runConfig := .dict [(.str "timeout_s", .float (1 / 2))]
  points := []
  resultMembers := [(.str "schema_version", .str "2"), (.str "trust_level", .str "exploratory"),
    (.str "summary", .dict [(.str "generated", .int 0), (.str "evaluated", .int 0),
      (.str "pruned", .int 0), (.str "failed", .int 0), (.str "filtered", .int 0),
      (.str "complete", .int 0), (.str "partial", .int 0)]), (.str "results", .list []),
    (.str "errors", .list []), (.str "input_digest", .str ""), (.str "workload_digest", .str ""),
    (.str "calibration_digest", .str ""), (.str "frontier_design_point_ids", .list [])]
  coverageMembers := [(.str "counts", .dict [(.str "generated", .int 0),
      (.str "evaluated", .int 0), (.str "pruned", .int 0), (.str "successful", .int 0),
      (.str "filtered", .int 0), (.str "failed", .int 0)]), (.str "axis_coverage", .dict []),
    (.str "missing_axes", .list [])]

theorem timeoutRun_proper : timeoutRun.Proper := by
  have hnil : (PyData.list [] : PyData ℚ).Proper := .list fun a ha => absurd ha List.not_mem_nil
  have hempty : (PyData.dict [] : PyData ℚ).Proper :=
    .dict List.nodup_nil fun a ha => absurd ha List.not_mem_nil
  have hcounts : ∀ l : List String, l.Nodup →
      (PyData.dict (l.map fun s => (.str s, .int 0)) : PyData ℚ).Proper := by
    intro l hl
    refine .dict ?_ fun e he => ?_
    · rw [List.map_map]
      exact hl.map fun s t h => DictKey.str.inj h
    · obtain ⟨s, -, rfl⟩ := List.mem_map.mp he
      exact .int 0
  constructor
  · exact hempty
  · exact hempty
  · exact .dict (by decide) fun e he => by rw [List.mem_singleton.mp he]; exact .float _
  · exact fun p hp => absurd hp List.not_mem_nil
  · exact fun p hp => absurd hp List.not_mem_nil
  · refine .dict (by decide) fun e he => ?_
    simp only [timeoutRun, List.mem_cons, List.not_mem_nil, or_false] at he
    rcases he with rfl | rfl | rfl | rfl | rfl | rfl | rfl | rfl | rfl
    · exact .str _
    · exact .str _
    · exact hcounts ["generated", "evaluated", "pruned", "failed", "filtered", "complete",
        "partial"] (by decide)
    · exact hnil
    · exact hnil
    · exact .str _
    · exact .str _
    · exact .str _
    · exact hnil
  · refine .dict (by decide) fun e he => ?_
    simp only [timeoutRun, List.mem_cons, List.not_mem_nil, or_false] at he
    rcases he with rfl | rfl | rfl
    · exact hcounts ["generated", "evaluated", "pruned", "successful", "filtered", "failed"]
        (by decide)
    · exact hempty
    · exact hnil

theorem timeoutRun_not_plain : ¬timeoutRun.Plain := by
  intro h
  cases h.runConfig with
  | dict _ hvalues => cases hvalues (.str "timeout_s", .float (1 / 2)) (by simp)

theorem timeoutRun_written : ∃ place', writeReplayBundle sampleRepr sampleDigest "bundle"
    "2026-01-01T00:00:00+00:00" false timeoutRun .missing = .ok place' :=
  exists_writeReplayBundle_eq_ok.mpr ⟨by rintro ⟨⟩, fun _ _ => rfl⟩

end Dse

/-! ### What the digest of a bundle pins down

The canonical digest of a bundle is that of its inputs, its result and its coverage, written one
behind the other without a mark between them. Since each of them is the text of an object, the
digest still pins down all three: bytes that move from one file to the next leave no texts that
can be read. -/

namespace Dse

open PyData

variable {F : Type}

/-- The value of a mapping under a key. -/
def getItem (a : PyData F) (key : String) : Except BundleError (PyData F) :=
  match a with
  | .dict l =>
    match l.lookup (.str key) with
    | some v => .ok v
    | none => .error (.raised (.keyError key))
  | _ => .error .typeError

/-- Return the canonical payload digest for a bundle directory. -/
def replayBundleCanonicalDigest (float : String → F) (sha256Hex : String → String)
    (root : String) (place : Location) : Except BundleError (PyData F) := do
  let bundle ← readReplayBundle float sha256Hex root place
  let digests ← getItem bundle.manifest "digests"
  getItem digests "canonical_payload"

variable {py : F → String} {float : String → F} {sha256Hex : String → String} {root : String}

/-- What a member is found to be, though it is not the default, it is under its key. -/
theorem getItem_of_getMember {a d v : PyData F} {key : String} (h : getMember a key d = .ok v)
    (hne : v ≠ d) : getItem a key = .ok v := by
  cases a with
  | dict l =>
    cases hlookup : l.lookup (.str key) with
    | none =>
      rw [getMember, hlookup] at h
      exact absurd (Except.ok.inj h).symm hne
    | some w =>
      rw [getMember, hlookup] at h
      rw [getItem, hlookup]
      exact h
  | _ => cases h

theorem loadFile_eq_ok_iff {files : Dict String String} {name : String} {a : PyData F} :
    loadFile float files name = .ok a ↔
      ∃ text, files.get? name = some text ∧ jsonLoads float text = .ok a := by
  unfold loadFile
  cases hget : files.get? name with
  | none => simp
  | some text =>
    dsimp only
    cases hloads : jsonLoads float text with
    | error e =>
      refine iff_of_false (by rintro ⟨⟩) ?_
      rintro ⟨text', htext', hloads'⟩
      rw [← Option.some.inj htext', hloads] at hloads'
      cases hloads'
    | ok b =>
      constructor
      · intro h
        cases h
        exact ⟨text, rfl, hloads⟩
      · rintro ⟨text', htext', hloads'⟩
        rw [← Option.some.inj htext', hloads] at hloads'
        cases hloads'
        rfl

/-- The texts of the three files that a reader has accepted, with the digest it has checked. -/
structure Accepted (float : String → F) (sha256Hex : String → String)
    (files : Dict String String) (ti tr tc : String) (bundle : ReplayBundle F) : Prop where
  inputs : files.get? "inputs.json" = some ti ∧ jsonLoads float ti = .ok bundle.inputs
  result : files.get? "result.json" = some tr ∧ jsonLoads float tr = .ok bundle.result
  coverage : files.get? "coverage.json" = some tc ∧ jsonLoads float tc = .ok bundle.coverage
  digest : ∃ digests, getItem bundle.manifest "digests" = .ok digests ∧
    getItem digests "canonical_payload" = .ok (.str (sha256Hex (ti ++ tr ++ tc)))

theorem readBundleFiles_eq_ok {files : Dict String String} {bundle : ReplayBundle F}
    (h : readBundleFiles float sha256Hex root files = .ok bundle) :
    ∃ ti tr tc, Accepted float sha256Hex files ti tr tc bundle := by
  unfold readBundleFiles at h
  dsimp only at h
  split_ifs at h with hmissing
  · cases h
  · obtain ⟨inputs, hinputs, h⟩ := bind_eq_ok.mp h
    obtain ⟨result, hresult, h⟩ := bind_eq_ok.mp h
    obtain ⟨coverage, hcoverage, h⟩ := bind_eq_ok.mp h
    obtain ⟨manifest, hmanifest, h⟩ := bind_eq_ok.mp h
    obtain ⟨expected, hexpected, h⟩ := bind_eq_ok.mp h
    obtain ⟨_, hsums, h⟩ := bind_eq_ok.mp h
    obtain ⟨digests, hdigests, h⟩ := bind_eq_ok.mp h
    obtain ⟨digest, hdigest, h⟩ := bind_eq_ok.mp h
    split_ifs at h with hstring
    · cases h
    · obtain ⟨metadata, hmetadata, h⟩ := bind_eq_ok.mp h
      cases h
      obtain ⟨inputsText, hget₁, hloads₁⟩ := loadFile_eq_ok_iff.mp hinputs
      obtain ⟨resultText, hget₂, hloads₂⟩ := loadFile_eq_ok_iff.mp hresult
      obtain ⟨coverageText, hget₃, hloads₃⟩ := loadFile_eq_ok_iff.mp hcoverage
      refine ⟨inputsText, resultText, coverageText, ⟨hget₁, hloads₁⟩, ⟨hget₂, hloads₂⟩,
        ⟨hget₃, hloads₃⟩, digests, ?_⟩
      rw [hget₁, hget₂, hget₃] at hstring
      have hvalue : digest = .str (sha256Hex (inputsText ++ resultText ++ coverageText)) := by
        cases digest with
        | str s => simpa [isString] using hstring
        | _ => simp [isString] at hstring
      subst hvalue
      have hitem := getItem_of_getMember hdigest (by rintro ⟨⟩)
      refine ⟨getItem_of_getMember hdigests ?_, hitem⟩
      rintro rfl
      cases hitem

/-- The canonical digest is the checked one. -/
theorem replayBundleCanonicalDigest_eq_ok {place : Location} {a : PyData F}
    (h : replayBundleCanonicalDigest float sha256Hex root place = .ok a) :
    ∃ files ti tr tc bundle, place = .directory files ∧
      Accepted float sha256Hex files ti tr tc bundle ∧ a = .str (sha256Hex (ti ++ tr ++ tc)) := by
  obtain ⟨bundle, hread, hitems⟩ := bind_eq_ok.mp h
  cases place with
  | directory files =>
    obtain ⟨ti, tr, tc, haccepted⟩ := readBundleFiles_eq_ok hread
    obtain ⟨digests, hdigests, hitem⟩ := haccepted.digest
    rw [hdigests, bind_eq_ok_left, hitem] at hitems
    exact ⟨files, ti, tr, tc, bundle, rfl, haccepted, (Except.ok.inj hitems).symm⟩
  | _ => cases hread

/-- What is written has the digest of its texts. -/
theorem canonicalDigest_of_written (float : String → F) (h : HexDigests sha256Hex)
    {createdAt : String} {allowOverwrite : Bool} {run : ReplayRun F} {place place' : Location}
    (hwrite : writeReplayBundle py sha256Hex root createdAt allowOverwrite run place =
      .ok place') : ∃ p, payload py sha256Hex run = .ok p ∧
      replayBundleCanonicalDigest float sha256Hex root place' =
        .ok (.str (sha256Hex (p.inputs ++ p.result ++ p.coverage))) := by
  obtain ⟨-, p, files', metadata, hpayload, rfl, hmetadata, hwritten⟩ :=
    writeReplayBundle_eq_ok hwrite
  have hread := readBundleFiles_of_written float h root hpayload hmetadata hwritten
  obtain ⟨ti, tr, tc, haccepted⟩ := readBundleFiles_eq_ok hread
  obtain ⟨digests, hdigests, hitem⟩ := haccepted.digest
  have hfile := hwritten.payload
  rw [Payload.files, List.forall_mem_cons, List.forall_mem_cons, List.forall_mem_cons] at hfile
  have hti : ti = p.inputs := Option.some.inj (haccepted.inputs.1.symm.trans hfile.1)
  have htr : tr = p.result := Option.some.inj (haccepted.result.1.symm.trans hfile.2.1)
  have htc : tc = p.coverage := Option.some.inj (haccepted.coverage.1.symm.trans hfile.2.2.1)
  subst hti htr htc
  refine ⟨p, hpayload, bind_eq_ok.mpr ⟨_, hread, bind_eq_ok.mpr ⟨digests, hdigests, hitem⟩⟩⟩

/-- The text of a mapping is the text of an object. -/
theorem exists_text_of_canonical {l : List (DictKey × PyData F)} {text : String}
    (h : canonicalJsonBytes py (.dict l) = .ok text) :
    ∃ members, text.toList = Json.text (.dict members) := by
  rw [canonicalJsonBytes_dict] at h
  cases h
  rw [String.toList_ofList, normaliseValue_dict]
  exact ⟨_, rfl⟩

theorem exists_loads {text : String} {a : PyData F} (h : jsonLoads float text = .ok a) :
    ∃ v, Json.loads (hooks float) text.toList = some v := by
  cases hloads : Json.loads (hooks float) text.toList with
  | none => rw [jsonLoads, hloads] at h; cases h
  | some v => exact ⟨v, rfl⟩

end Dse

end NpuArc
