import NpuArc.Core.Isa
import NpuArc.Library.Decimal
import NpuArc.Library.PyText

/-!
# Assembly text

An instruction is printed as its mnemonic, its operands and its comment behind a number sign.
The parser splits a line at white space, commas and equality signs. It knows a comment only
where it takes up the whole line, so a comment behind operands is read as part of the last one.
-/

namespace NpuArc

namespace Core

/-- The operation codes by their mnemonics. -/
def mnemonicTable : List (String × OpCode) :=
  [("mmul", .mmul), ("softmax", .softmax), ("layernorm", .layernorm), ("gelu", .gelu),
    ("relu", .relu), ("rope", .rope), ("silu", .silu), ("maxpool", .maxpool),
    ("avgpool", .avgpool), ("dma_ld", .dmaLd), ("dma_st", .dmaSt), ("kv_load", .kvLoad),
    ("kv_store", .kvStore), ("barrier", .barrier), ("nop", .nop), ("vadd", .vadd),
    ("vmul", .vmul), ("vred_max", .vredMax), ("vred_sum", .vredSum), ("vconv", .vconv),
    ("vresid", .vresid), ("vconv_f16_i32", .vconvF16I32), ("dma_ldd", .dmaLdd),
    ("dma_std", .dmaStd), ("rmsnorm", .rmsnorm)]

section Text

variable (T : UnicodeData)

/-- The operation code of a mnemonic. -/
def OpCode.fromMnemonic (mnemonic : List Char) : Except Error OpCode :=
  let mnemonic := String.ofList (T.lower mnemonic)
  match mnemonicTable.lookup mnemonic with
  | some op => .ok op
  | none => .error (.keyError mnemonic)

namespace NPUInstruction

def mnemonic (instr : NPUInstruction) : List Char := T.lower instr.opcode.name.toList

/-- The printed form of an operand. -/
def operandText (entry : String × ℤ) : List Char :=
  entry.1.toList ++ '=' :: (toString entry.2).toList

/-- The printed form of the operands. -/
def operandsText (instr : NPUInstruction) : List Char :=
  [',', ' '].intercalate (instr.operands.entries.map operandText)

/-- The printed form of the comment. -/
def commentText (instr : NPUInstruction) : List Char :=
  if instr.comment = "" then [] else ' ' :: ' ' :: '#' :: ' ' :: instr.comment.toList

/-- The printed form of an instruction. -/
def repr (instr : NPUInstruction) : List Char :=
  (instr.mnemonic T).rightpad 10 ' ' ++ ' ' :: (instr.operandsText ++ instr.commentText)

end NPUInstruction

/-- The integer of an operand, in hexadecimal if it is marked so. -/
def parseInt (val : List Char) : Except Error ℤ :=
  let hexadecimal := val.take 2 = ['0', 'x'] ∨ val.take 2 = ['0', 'X']
  match if hexadecimal then T.int16 val else T.int10 val with
  | some n => .ok n
  | none => .error (.valueError (s!"invalid literal for int() with base " ++
      (if hexadecimal then "16" else "10") ++ ": " ++ reprStr (String.ofList val)))

/-- Read one operand. A part without an equality sign is skipped. -/
def parseToken (operands : Dict String ℤ) (token : List Char) :
    Except Error (Dict String ℤ) := do
  let token := strip token
  if '=' ∈ token then
    let (key, val) := splitAtChar '=' token
    let n ← parseInt T (strip val)
    return operands.insert (String.ofList (strip key)) n
  else return operands

/-- Read operands separated by commas. -/
def parseOperands (operands : Dict String ℤ) (text : List Char) :
    Except Error (Dict String ℤ) :=
  (text.splitOn ',').foldlM (parseToken T) operands

/-- Read a line. -/
def parseInstruction (line : List Char) : Except Error NPUInstruction := do
  let line := strip line
  if line = [] ∨ line.head? = some '#' then return { opcode := .nop }
  let (mnemonic, rest) := splitWord line
  let opcode ← OpCode.fromMnemonic T (T.lower mnemonic)
  let operands ← parseOperands T .empty rest
  return { opcode := opcode, operands := operands }

/-- Whether a parsed instruction is kept: it is no operation without operands. -/
def NPUInstruction.kept (instr : NPUInstruction) : Bool :=
  instr.opcode ≠ .nop || instr.operands.entries ≠ []

/-- Read a program, line by line. -/
def parseIsaProgram (text : List Char) : Except Error (List NPUInstruction) := do
  let instrs ← (splitLines (strip text)).mapM (parseInstruction T)
  return instrs.filter NPUInstruction.kept

/-- The lines of a program. -/
def programText (program : List NPUInstruction) : List Char :=
  [Char.ofNat 10].intercalate (program.map (NPUInstruction.repr T))

/-- What the round trip keeps of an instruction. -/
def NPUInstruction.content (instr : NPUInstruction) : OpCode × Dict String ℤ :=
  (instr.opcode, instr.operands)

/-- Reading the printed program gives its instructions back, without the empty operations. -/
def RoundTrips (program : List NPUInstruction) : Prop :=
  ∃ parsed, parseIsaProgram T (programText T program) = .ok parsed ∧
    parsed.map NPUInstruction.content =
      (program.filter NPUInstruction.kept).map NPUInstruction.content

/-! ### Reading operands -/

theorem parseToken_congr {token token' : List Char} (h : strip token = strip token')
    (operands : Dict String ℤ) : parseToken T operands token = parseToken T operands token' := by
  unfold parseToken
  rw [h]

theorem parseOperands_last {part : List Char} (h : ',' ∉ part) (operands : Dict String ℤ) :
    parseOperands T operands part = parseToken T operands part := by
  rw [parseOperands, List.splitOn_eq_singleton h, List.foldlM_cons]
  cases parseToken T operands part <;> rfl

theorem parseOperands_next {part : List Char} (h : ',' ∉ part) (rest : List Char)
    (operands : Dict String ℤ) :
    parseOperands T operands (part ++ ',' :: rest) =
      (do parseOperands T (← parseToken T operands part) rest) := by
  rw [parseOperands, List.splitOn_append_cons_self_of_not_mem h, List.foldlM_cons]
  rfl

theorem parseOperands_cons_space {c : Char} (hc : isSpace c = true) (text : List Char)
    (operands : Dict String ℤ) :
    parseOperands T operands (c :: text) = parseOperands T operands text := by
  have hcomma : c ≠ ',' := by
    rintro rfl
    exact absurd hc (by decide)
  have hpart : ∀ part : List Char, ',' ∉ part → ',' ∉ c :: part := fun part h hmem =>
    (List.mem_cons.mp hmem).elim (fun heq => hcomma heq.symm) h
  induction text using parts_induction ',' with
  | last part h =>
    rw [parseOperands_last T (hpart part h), parseOperands_last T h]
    exact parseToken_congr T (strip_cons_space hc part) operands
  | next part rest h ih =>
    rw [← List.cons_append, parseOperands_next T (hpart part h), parseOperands_next T h,
      parseToken_congr T (strip_cons_space hc part)]

theorem parseOperands_append_spaces {spaces : List Char} (hspaces : ∀ c ∈ spaces, isSpace c = true)
    (text : List Char) (operands : Dict String ℤ) :
    parseOperands T operands (text ++ spaces) = parseOperands T operands text := by
  have hcomma : ',' ∉ spaces := fun hmem => absurd (hspaces ',' hmem) (by decide)
  induction text using parts_induction ',' generalizing operands with
  | last part h =>
    rw [parseOperands_last T (by simp [h, hcomma]), parseOperands_last T h]
    exact parseToken_congr T (strip_append_spaces hspaces) operands
  | next part rest h ih =>
    rw [List.append_assoc, List.cons_append, parseOperands_next T h, parseOperands_next T h]
    simp only [ih]

theorem parseOperands_spaces_append {spaces : List Char} (hspaces : ∀ c ∈ spaces, isSpace c = true)
    (text : List Char) (operands : Dict String ℤ) :
    parseOperands T operands (spaces ++ text) = parseOperands T operands text := by
  induction spaces with
  | nil => rfl
  | cons c spaces ih =>
    obtain ⟨hc, hspaces⟩ := List.forall_mem_cons.mp hspaces
    rw [List.cons_append, parseOperands_cons_space T hc, ih hspaces]

/-- White space around the operands does not matter. -/
theorem parseOperands_strip (text : List Char) (operands : Dict String ℤ) :
    parseOperands T operands (strip text) = parseOperands T operands text := by
  obtain ⟨before, after, hbefore, hafter, htext⟩ := exists_strip text
  conv_rhs => rw [htext]
  rw [parseOperands_spaces_append T hbefore, parseOperands_append_spaces T hafter]

/-- A name that is read as it is printed. -/
def CleanKey (key : String) : Prop :=
  strip key.toList = key.toList ∧
    ∀ c ∈ key.toList, c ≠ ',' ∧ c ≠ '=' ∧ isLineBreak c = false

theorem parseInt_toString (i : ℤ) : parseInt T (toString i).toList = .ok i := by
  have hx : ∀ x : Char, (toString i).toList.take 2 = ['0', x] → x = '-' ∨ x.isDigit = true := by
    intro x htake
    exact mem_toString (List.mem_of_mem_take (i := 2) (by rw [htake]; simp))
  rw [parseInt]
  have hdecimal : ¬((toString i).toList.take 2 = ['0', 'x'] ∨
      (toString i).toList.take 2 = ['0', 'X']) := by
    rintro (h | h)
    · exact absurd (hx _ h) (by decide)
    · exact absurd (hx _ h) (by decide)
  rw [if_neg hdecimal, T.int10_toString]

/-- A literal with a number sign is refused. -/
theorem parseInt_ne_ok {val : List Char} (h : '#' ∈ val) (i : ℤ) : parseInt T val ≠ .ok i := by
  rw [parseInt]
  split_ifs with hhex
  · have hdrop : '#' ∈ val.drop 2 := by
      rw [← List.take_append_drop 2 val, List.mem_append] at h
      refine h.resolve_left fun htake => ?_
      rcases hhex with heq | heq
      · rw [heq] at htake
        exact absurd htake (by decide)
      · rw [heq] at htake
        exact absurd htake (by decide)
    rw [T.int16_eq_none hdrop]
    intro heq
    cases heq
  · rw [T.int10_eq_none h]
    intro heq
    cases heq

/-- An operand under a clean name. -/
theorem parseToken_eq {key : String} (hkey : CleanKey key) (val : List Char)
    (operands : Dict String ℤ) :
    parseToken T operands (key.toList ++ '=' :: val) =
      (parseInt T (strip val)).map fun n => operands.insert key n := by
  have hne : '=' ∉ key.toList := fun hmem => (hkey.2 '=' hmem).2.1 rfl
  have hhead : ∀ c ∈ (key.toList ++ ['=']).head?, isSpace c = false := by
    intro c hc
    cases hlist : key.toList with
    | nil =>
      rw [hlist] at hc
      obtain rfl := Option.some_inj.mp hc
      decide
    | cons d t =>
      rw [hlist] at hc
      refine head_strip (l := key.toList) ?_
      rw [hkey.1, hlist]
      exact hc
  have hlast : ∀ c ∈ (key.toList ++ ['=']).getLast?, isSpace c = false := by
    intro c hc
    rw [List.getLast?_append_of_ne_nil _ (List.cons_ne_nil _ _)] at hc
    obtain rfl := Option.some_inj.mp hc
    decide
  have hstrip : strip (key.toList ++ '=' :: val) =
      key.toList ++ '=' :: val.rdropWhile isSpace := by
    rw [← List.singleton_append, ← List.append_assoc, strip_append hhead hlast (by simp),
      List.append_assoc]
    rfl
  unfold parseToken
  simp only [hstrip, splitAtChar_append hne, hkey.1, String.ofList_toList, strip_rdropWhile]
  rw [if_pos (by simp)]
  cases parseInt T (strip val) <;> rfl

theorem parseToken_operandText {entry : String × ℤ} (hkey : CleanKey entry.1)
    (operands : Dict String ℤ) :
    parseToken T operands (NPUInstruction.operandText entry) =
      .ok (operands.insert entry.1 entry.2) := by
  rw [NPUInstruction.operandText, parseToken_eq T hkey, strip_toString, parseInt_toString]
  rfl

/-- What follows an operand is part of its value, and a number sign spoils it. -/
theorem parseToken_ne_ok {entry : String × ℤ} (hkey : CleanKey entry.1) {rest : List Char}
    (h : '#' ∈ rest) (operands parsed : Dict String ℤ) :
    parseToken T operands (NPUInstruction.operandText entry ++ rest) ≠ .ok parsed := by
  rw [NPUInstruction.operandText, List.append_assoc, List.cons_append, parseToken_eq T hkey]
  have hmem : '#' ∈ strip ((toString entry.2).toList ++ rest) :=
    mem_strip (List.mem_append_right _ h) (by decide)
  cases hval : parseInt T (strip ((toString entry.2).toList ++ rest)) with
  | error e =>
    intro heq
    cases heq
  | ok n => exact absurd hval (parseInt_ne_ok T hmem n)

theorem not_mem_operandText {entry : String × ℤ} (hkey : CleanKey entry.1) :
    ',' ∉ NPUInstruction.operandText entry := by
  rw [NPUInstruction.operandText, List.mem_append, List.mem_cons]
  rintro (h | h | h)
  · exact (hkey.2 ',' h).1 rfl
  · exact absurd h (by decide)
  · rcases mem_toString h with heq | hdigit
    · exact absurd heq (by decide)
    · exact absurd hdigit (by decide)

/-- Printed operands are read one after the other. -/
theorem parseOperands_entries {entries : List (String × ℤ)}
    (hclean : ∀ entry ∈ entries, CleanKey entry.1) (operands : Dict String ℤ) :
    parseOperands T operands
        ([',', ' '].intercalate (entries.map NPUInstruction.operandText)) =
      .ok (entries.foldl (fun d entry => d.insert entry.1 entry.2) operands) := by
  induction entries generalizing operands with
  | nil => rfl
  | cons entry entries ih =>
    obtain ⟨hentry, hentries⟩ := List.forall_mem_cons.mp hclean
    cases entries with
    | nil =>
      rw [List.map_singleton, List.intercalate_singleton,
        parseOperands_last T (not_mem_operandText hentry), parseToken_operandText T hentry]
      rfl
    | cons entry' entries =>
      rw [List.map_cons, List.map_cons, List.intercalate_cons_cons, List.append_assoc,
        List.cons_append, List.singleton_append, parseOperands_next T (not_mem_operandText hentry),
        parseToken_operandText T hentry, bind_eq_ok_left, parseOperands_cons_space T (by decide),
        ← List.map_cons, ih hentries]
      rfl

/-- A comment behind operands spoils the last one. -/
theorem parseOperands_comment_ne_ok {entries : List (String × ℤ)}
    (hclean : ∀ entry ∈ entries, CleanKey entry.1) (hne : entries ≠ []) (comment : List Char)
    (operands parsed : Dict String ℤ) :
    parseOperands T operands ([',', ' '].intercalate (entries.map NPUInstruction.operandText) ++
      ' ' :: ' ' :: '#' :: comment) ≠ .ok parsed := by
  induction entries generalizing operands with
  | nil => exact absurd rfl hne
  | cons entry entries ih =>
    obtain ⟨hentry, hentries⟩ := List.forall_mem_cons.mp hclean
    have hcomma := not_mem_operandText hentry
    cases entries with
    | nil =>
      rw [List.map_singleton, List.intercalate_singleton]
      cases comment using parts_induction ',' with
      | last part h =>
        rw [parseOperands_last T (by simp [hcomma, h])]
        exact parseToken_ne_ok T hentry (by simp) operands parsed
      | next part rest h =>
        have hpart : ',' ∉ NPUInstruction.operandText entry ++ ' ' :: ' ' :: '#' :: part := by
          simp [hcomma, h]
        rw [show NPUInstruction.operandText entry ++ ' ' :: ' ' :: '#' :: (part ++ ',' :: rest) =
          (NPUInstruction.operandText entry ++ ' ' :: ' ' :: '#' :: part) ++ ',' :: rest by simp,
          parseOperands_next T hpart, Ne, bind_eq_ok]
        rintro ⟨operands', htoken, -⟩
        exact parseToken_ne_ok T hentry (by simp) operands operands' htoken
    | cons entry' entries =>
      rw [List.map_cons, List.map_cons, List.intercalate_cons_cons, List.append_assoc,
        List.append_assoc, List.cons_append, List.singleton_append, parseOperands_next T hcomma,
        parseToken_operandText T hentry, bind_eq_ok_left, parseOperands_cons_space T (by decide),
        ← List.map_cons]
      exact ih hentries (List.cons_ne_nil _ _) _

/-- Text without equality signs has no operands. -/
theorem parseOperands_of_not_mem {text : List Char} (h : '=' ∉ text) (operands : Dict String ℤ) :
    parseOperands T operands text = .ok operands := by
  have htoken : ∀ token : List Char, '=' ∉ token →
      parseToken T operands token = .ok operands := by
    intro token htoken
    unfold parseToken
    exact if_neg fun hmem => htoken (mem_of_mem_strip hmem)
  induction text using parts_induction ',' with
  | last part hpart =>
    rw [parseOperands_last T hpart]
    exact htoken part h
  | next part rest hpart ih =>
    rw [List.mem_append, List.mem_cons, not_or, not_or] at h
    rw [parseOperands_next T hpart, htoken part h.1, bind_eq_ok_left, ih h.2.2]

/-- What reading one operand changes: it is skipped, or stored under a name cut out of it. -/
theorem parseToken_cases {operands parsed : Dict String ℤ} {token : List Char}
    (h : parseToken T operands token = .ok parsed) :
    ('=' ∉ token ∧ parsed = operands) ∨
      ∃ n, parsed = operands.insert
        (String.ofList (strip ((strip token).takeWhile (· ≠ '=')))) n := by
  unfold parseToken at h
  dsimp only at h
  split_ifs at h with hmem
  · obtain ⟨n, -, hparsed⟩ := bind_eq_ok.mp h
    exact .inr ⟨n, (Except.ok.inj hparsed).symm⟩
  · exact .inl ⟨fun htoken => hmem (mem_strip htoken (by decide)), (Except.ok.inj h).symm⟩

theorem entries_insert_ne_nil (d : Dict String ℤ) (key : String) (n : ℤ) :
    (d.insert key n).entries ≠ [] := by
  intro hnil
  have hmem : key ∈ (d.insert key n).keys := Dict.mem_keys_insert.mpr (.inl rfl)
  rw [Dict.keys, hnil] at hmem
  cases hmem

/-- Text with an equality sign has an operand. -/
theorem parseOperands_ne_nil {text : List Char} {operands parsed : Dict String ℤ}
    (h : parseOperands T operands text = .ok parsed)
    (hmem : '=' ∈ text ∨ operands.entries ≠ []) : parsed.entries ≠ [] := by
  have htoken : ∀ {token : List Char} {operands parsed : Dict String ℤ},
      parseToken T operands token = .ok parsed → '=' ∈ token ∨ operands.entries ≠ [] →
      parsed.entries ≠ [] := by
    intro token operands parsed hparse hor
    rcases parseToken_cases T hparse with ⟨hnot, rfl⟩ | ⟨n, rfl⟩
    · exact hor.resolve_left hnot
    · exact entries_insert_ne_nil operands _ n
  induction text using parts_induction ',' generalizing operands with
  | last part hpart =>
    rw [parseOperands_last T hpart] at h
    exact htoken h hmem
  | next part rest hpart ih =>
    rw [parseOperands_next T hpart] at h
    obtain ⟨operands', hfirst, hrest⟩ := bind_eq_ok.mp h
    rw [List.mem_append, List.mem_cons] at hmem
    rcases hmem with (hmem | heq | hmem) | hne
    · exact ih hrest (.inr (htoken hfirst (.inl hmem)))
    · exact absurd heq (by decide)
    · exact ih hrest (.inl hmem)
    · exact ih hrest (.inr (htoken hfirst (.inr hne)))

/-- A name that is cut out of one line is clean. -/
theorem cleanKey_ofList {token : List Char} (hcomma : ',' ∉ token)
    (hline : ∀ c ∈ token, isLineBreak c = false) :
    CleanKey (String.ofList (strip ((strip token).takeWhile (· ≠ '=')))) := by
  rw [CleanKey, String.toList_ofList, strip_strip]
  refine ⟨rfl, fun c hc => ?_⟩
  have htake := mem_of_mem_strip hc
  have hmem : c ∈ token := mem_of_mem_strip ((List.takeWhile_prefix _).subset htake)
  have hne := List.mem_takeWhile_imp htake
  refine ⟨?_, of_decide_eq_true hne, hline c hmem⟩
  rintro rfl
  exact hcomma hmem

/-- The names of operands on one line are clean. -/
theorem parseOperands_cleanKey {text : List Char} {operands parsed : Dict String ℤ}
    (hline : ∀ c ∈ text, isLineBreak c = false)
    (h : parseOperands T operands text = .ok parsed) (hclean : ∀ key ∈ operands.keys, CleanKey key) :
    ∀ key ∈ parsed.keys, CleanKey key := by
  have htoken : ∀ {token : List Char} {operands parsed : Dict String ℤ}, ',' ∉ token →
      (∀ c ∈ token, isLineBreak c = false) → parseToken T operands token = .ok parsed →
      (∀ key ∈ operands.keys, CleanKey key) → ∀ key ∈ parsed.keys, CleanKey key := by
    intro token operands parsed hcomma htoken hparse hkeys key hkey
    rcases parseToken_cases T hparse with ⟨-, rfl⟩ | ⟨n, rfl⟩
    · exact hkeys key hkey
    · rcases Dict.mem_keys_insert.mp hkey with rfl | hkey
      · exact cleanKey_ofList hcomma htoken
      · exact hkeys key hkey
  induction text using parts_induction ',' generalizing operands with
  | last part hpart =>
    rw [parseOperands_last T hpart] at h
    exact htoken hpart hline h hclean
  | next part rest hpart ih =>
    rw [parseOperands_next T hpart] at h
    obtain ⟨operands', hfirst, hrest⟩ := bind_eq_ok.mp h
    have hoperands' := htoken hpart (fun c hc => hline c (List.mem_append_left _ hc)) hfirst hclean
    exact ih (fun c hc => hline c (List.mem_append_right _ (List.mem_cons_of_mem _ hc))) hrest
      hoperands'

/-! ### Reading lines -/

/-- A mnemonic is a word of its own, which the table knows. -/
theorem mnemonic_eq (instr : NPUInstruction) :
    instr.mnemonic T = instr.opcode.name.toList.map Char.toLower := by
  refine T.lower_ascii _ (forall_mem_of_all ?_)
  cases instr.opcode <;> decide

theorem mnemonic_word (instr : NPUInstruction) :
    ∀ c ∈ instr.mnemonic T, isSpace c = false ∧ c ≠ '#' := by
  rw [mnemonic_eq]
  refine forall_mem_of_all ?_
  cases instr.opcode <;> decide

theorem mnemonic_ne_nil (instr : NPUInstruction) : instr.mnemonic T ≠ [] := by
  rw [mnemonic_eq]
  cases instr.opcode <;> decide

theorem lower_mnemonic (instr : NPUInstruction) :
    T.lower (instr.mnemonic T) = instr.mnemonic T := by
  rw [mnemonic_eq, T.lower_ascii]
  · cases instr.opcode <;> decide
  · refine forall_mem_of_all ?_
    cases instr.opcode <;> decide

theorem fromMnemonic_mnemonic (instr : NPUInstruction) :
    OpCode.fromMnemonic T (instr.mnemonic T) = .ok instr.opcode := by
  rw [OpCode.fromMnemonic, lower_mnemonic, mnemonic_eq]
  cases instr.opcode <;> rfl

theorem isLineBreak_of_isSpace {c : Char} (h : isSpace c = false) : isLineBreak c = false := by
  simp only [isSpace, Bool.or_eq_false_iff, Bool.and_eq_false_iff, decide_eq_false_iff_not] at h
  simp only [isLineBreak, Bool.or_eq_false_iff, Bool.and_eq_false_iff, decide_eq_false_iff_not]
  omega

/-- A line gives back its operation code, with what is read out of the rest. -/
theorem parseInstruction_repr (instr : NPUInstruction) :
    parseInstruction T (instr.repr T) = (do
      let operands ← parseOperands T .empty (instr.operandsText ++ instr.commentText)
      return { opcode := instr.opcode, operands := operands }) := by
  obtain ⟨c, word, hcons⟩ := List.exists_cons_of_ne_nil (mnemonic_ne_nil T instr)
  have hword := mnemonic_word T instr
  obtain ⟨spaces, hspaces, hrepr⟩ : ∃ spaces : List Char, (∀ c ∈ spaces, isSpace c = true) ∧
      instr.repr T = instr.mnemonic T ++ ' ' ::
        (spaces ++ (instr.operandsText ++ instr.commentText)) := by
    refine ⟨List.replicate (10 - (instr.mnemonic T).length) ' ', fun c hc => ?_, ?_⟩
    · rw [List.eq_of_mem_replicate hc]
      decide
    · have hswap : ∀ (n : ℕ) (l : List Char),
          List.replicate n ' ' ++ ' ' :: l = ' ' :: (List.replicate n ' ' ++ l) := by
        intro n l
        rw [← List.cons_append, ← List.replicate_succ, List.replicate_succ', List.append_assoc]
        rfl
      rw [NPUInstruction.repr, List.rightpad, List.append_assoc, hswap]
  have hsplit := splitWord_strip (fun c hc => (hword c hc).1) (mnemonic_ne_nil T instr)
    (show isSpace ' ' = true by decide) (spaces ++ (instr.operandsText ++ instr.commentText))
  rw [← hrepr] at hsplit
  have hnot : ¬(strip (instr.repr T) = [] ∨ (strip (instr.repr T)).head? = some '#') := by
    rw [hcons] at hsplit hword
    rintro (hnil | hhead)
    · rw [hnil] at hsplit
      cases hsplit
    · obtain ⟨t, ht⟩ := List.head?_eq_some_iff.mp hhead
      have hfirst := congrArg Prod.fst hsplit
      rw [ht, splitWord, List.dropWhile_cons_of_neg (by decide),
        List.takeWhile_cons_of_pos (by decide)] at hfirst
      exact (hword c List.mem_cons_self).2 (List.cons.inj hfirst).1.symm
  unfold parseInstruction
  dsimp only
  rw [if_neg hnot, hsplit]
  dsimp only
  rw [lower_mnemonic, fromMnemonic_mnemonic, parseOperands_strip,
    parseOperands_spaces_append T hspaces]
  rfl

theorem parseInstruction_strip (line : List Char) :
    parseInstruction T (strip line) = parseInstruction T line := by
  unfold parseInstruction
  rw [strip_strip]

/-- The comment breaks no line. -/
def SingleLine (instr : NPUInstruction) : Prop :=
  ∀ c ∈ instr.comment.toList, isLineBreak c = false

/-- An instruction that its line gives back. Behind operands there is no comment, and a comment
without operands has no equality sign. -/
def Printable (instr : NPUInstruction) : Prop :=
  if instr.operands.entries = [] then '=' ∉ instr.comment.toList
  else instr.comment = "" ∧ ∀ key ∈ instr.operands.keys, CleanKey key

theorem operandsText_eq_nil {instr : NPUInstruction} (h : instr.operands.entries = []) :
    instr.operandsText = [] := by
  rw [NPUInstruction.operandsText, h]
  rfl

theorem commentText_eq {instr : NPUInstruction} (h : instr.comment ≠ "") :
    instr.commentText = ' ' :: ' ' :: '#' :: ' ' :: instr.comment.toList := by
  rw [NPUInstruction.commentText, if_neg h]

theorem Printable.cleanKey {instr : NPUInstruction} (h : Printable instr) :
    ∀ key ∈ instr.operands.keys, CleanKey key := by
  intro key hkey
  rw [Printable] at h
  split_ifs at h with hnil
  · rw [Dict.keys, hnil] at hkey
    cases hkey
  · exact h.2 key hkey

/-- The line of such an instruction gives back its operation code and operands. -/
theorem parseInstruction_printable {instr : NPUInstruction} (h : Printable instr) :
    parseInstruction T (instr.repr T) =
      .ok { opcode := instr.opcode, operands := instr.operands } := by
  suffices hoperands : parseOperands T .empty (instr.operandsText ++ instr.commentText) =
      .ok instr.operands by
    rw [parseInstruction_repr, hoperands]
    rfl
  have hclean := h.cleanKey
  rw [Printable] at h
  split_ifs at h with hnil
  · have hempty : instr.operands = .empty := by
      cases hdict : instr.operands
      rw [hdict] at hnil
      cases hnil
      rfl
    rw [operandsText_eq_nil hnil, List.nil_append, hempty]
    refine parseOperands_of_not_mem T ?_ _
    rw [NPUInstruction.commentText]
    split_ifs
    · exact List.not_mem_nil
    · simp [h]
  · rw [NPUInstruction.commentText, if_pos h.1, List.append_nil, NPUInstruction.operandsText,
      parseOperands_entries T fun entry hentry => hclean _ (List.mem_map_of_mem hentry)]
    refine congrArg Except.ok ?_
    have hentries := Dict.entries_ofList instr.operands.nodup
    cases hlist : Dict.ofList instr.operands.entries
    cases hdict : instr.operands
    rw [hlist, hdict] at hentries
    cases hentries
    rw [hdict] at hlist
    exact hlist

/-- The line of an instruction with clean names gives back no fewer operands, and exactly as
many only if nothing stands in the way. -/
theorem parseInstruction_length {instr parsed : NPUInstruction}
    (hclean : ∀ key ∈ instr.operands.keys, CleanKey key)
    (h : parseInstruction T (instr.repr T) = .ok parsed) :
    instr.operands.entries.length ≤ parsed.operands.entries.length ∧
      (parsed.operands.entries.length = instr.operands.entries.length → Printable instr) := by
  by_cases hprintable : Printable instr
  · rw [parseInstruction_printable T hprintable] at h
    obtain rfl := Except.ok.inj h
    exact ⟨le_rfl, fun _ => hprintable⟩
  · rw [parseInstruction_repr] at h
    obtain ⟨operands, hoperands, hparsed⟩ := bind_eq_ok.mp h
    obtain rfl := Except.ok.inj hparsed
    by_cases hnil : instr.operands.entries = []
    · -- the comment is taken for an operand
      have hmem : '=' ∈ instr.comment.toList := by
        rw [Printable, if_pos hnil] at hprintable
        exact not_not.mp hprintable
      have hcomment : instr.comment ≠ "" := by
        intro hempty
        rw [hempty] at hmem
        cases hmem
      rw [operandsText_eq_nil hnil, commentText_eq hcomment] at hoperands
      have hne := parseOperands_ne_nil T hoperands (.inl (by simp [hmem]))
      have hpos := List.length_pos_of_ne_nil hne
      rw [hnil]
      refine ⟨Nat.zero_le _, fun hlength => ?_⟩
      rw [List.length_nil] at hlength
      exact absurd hlength hpos.ne'
    · -- the comment spoils the last operand
      have hcomment : instr.comment ≠ "" := by
        intro hempty
        rw [Printable, if_neg hnil] at hprintable
        exact hprintable ⟨hempty, hclean⟩
      rw [commentText_eq hcomment] at hoperands
      exact absurd hoperands (parseOperands_comment_ne_ok T
        (fun entry hentry => hclean _ (List.mem_map_of_mem hentry)) hnil _ _ _)

/-! ### Reading programs -/

theorem head_repr (instr : NPUInstruction) :
    ∃ c rest, instr.repr T = c :: rest ∧ isSpace c = false := by
  obtain ⟨c, word, hcons⟩ := List.exists_cons_of_ne_nil (mnemonic_ne_nil T instr)
  refine ⟨c, word ++ List.replicate (10 - (c :: word).length) ' ' ++
    ' ' :: (instr.operandsText ++ instr.commentText), ?_, ?_⟩
  · rw [NPUInstruction.repr, hcons]
    rfl
  · exact (mnemonic_word T instr c (by rw [hcons]; exact List.mem_cons_self)).1

/-- The line of an instruction is one line. -/
theorem isLineBreak_of_mem_repr {instr : NPUInstruction}
    (hclean : ∀ key ∈ instr.operands.keys, CleanKey key) (hline : SingleLine instr) :
    ∀ c ∈ instr.repr T, isLineBreak c = false := by
  have hoperands : ∀ c ∈ instr.operandsText, isLineBreak c = false := by
    intro c hc
    have htext : ∀ entries : List (String × ℤ), (∀ entry ∈ entries, CleanKey entry.1) →
        c ∈ [',', ' '].intercalate (entries.map NPUInstruction.operandText) →
        isLineBreak c = false := by
      intro entries hentries hmem
      have hentry : ∀ entry ∈ entries, c ∈ NPUInstruction.operandText entry →
          isLineBreak c = false := by
        intro entry hentry hmem
        rw [NPUInstruction.operandText, List.mem_append, List.mem_cons] at hmem
        rcases hmem with hmem | rfl | hmem
        · exact ((hentries entry hentry).2 c hmem).2.2
        · decide
        · exact isLineBreak_of_isSpace (isSpace_of_mem_toString hmem)
      induction entries with
      | nil => cases hmem
      | cons entry entries ih =>
        cases entries with
        | nil =>
          rw [List.map_singleton, List.intercalate_singleton] at hmem
          exact hentry entry List.mem_cons_self hmem
        | cons entry' entries =>
          rw [List.map_cons, List.map_cons, List.intercalate_cons_cons, ← List.map_cons,
            List.mem_append, List.mem_append] at hmem
          rcases hmem with (hmem | hmem) | hmem
          · exact hentry entry List.mem_cons_self hmem
          · simp only [List.mem_cons, List.not_mem_nil, or_false] at hmem
            rcases hmem with rfl | rfl
            · decide
            · decide
          · exact ih (fun entry h => hentries entry (List.mem_cons_of_mem _ h)) hmem
              fun entry h => hentry entry (List.mem_cons_of_mem _ h)
    exact htext _ (fun entry h => hclean _ (List.mem_map_of_mem h)) hc
  have hcomment : ∀ c ∈ instr.commentText, isLineBreak c = false := by
    intro c hc
    rw [NPUInstruction.commentText] at hc
    split_ifs at hc
    · cases hc
    · simp only [List.mem_cons] at hc
      rcases hc with rfl | rfl | rfl | rfl | hc
      · decide
      · decide
      · decide
      · decide
      · exact hline c hc
  intro c hc
  rw [NPUInstruction.repr, List.rightpad, List.mem_append, List.mem_append, List.mem_cons,
    List.mem_append] at hc
  rcases hc with (hc | hc) | rfl | hc | hc
  · exact isLineBreak_of_isSpace (mnemonic_word T instr c hc).1
  · rw [List.eq_of_mem_replicate hc]
    decide
  · decide
  · exact hoperands c hc
  · exact hcomment c hc

/-- The lines of a printed program are read one by one. -/
theorem mapM_splitLines {program : List NPUInstruction}
    (hlines : ∀ instr ∈ program, ∀ c ∈ instr.repr T, isLineBreak c = false) :
    (splitLines (strip (programText T program))).mapM (parseInstruction T) =
      program.mapM fun instr => parseInstruction T (instr.repr T) := by
  unfold programText
  induction program with
  | nil => rfl
  | cons instr program ih =>
    obtain ⟨hinstr, hprogram⟩ := List.forall_mem_cons.mp hlines
    obtain ⟨c, rest, hrepr, hc⟩ := head_repr T instr
    have hstrip : c ∈ strip (instr.repr T) :=
      mem_strip (by rw [hrepr]; exact List.mem_cons_self) hc
    cases program with
    | nil =>
      rw [List.map_singleton, List.intercalate_singleton,
        splitLines_of_no_break (fun c hc => hinstr c (mem_of_mem_strip hc))
          (List.ne_nil_of_mem hstrip),
        List.mapM_cons, parseInstruction_strip, List.mapM_cons]
      rfl
    | cons instr' program =>
      rw [List.map_cons, List.map_cons, List.intercalate_cons_cons, ← List.map_cons,
        List.append_assoc, List.singleton_append, List.mapM_cons, ← ih hprogram]
      obtain ⟨d, rest', hrepr', hd⟩ := head_repr T instr'
      have htext : ∃ tail, [Char.ofNat 10].intercalate
          ((instr' :: program).map (NPUInstruction.repr T)) = d :: tail := by
        rw [List.map_cons, hrepr']
        cases program with
        | nil => exact ⟨rest', by rw [List.map_nil, List.intercalate_singleton]⟩
        | cons instr'' program =>
          rw [List.map_cons, List.intercalate_cons_cons]
          exact ⟨_, rfl⟩
      obtain ⟨tail, htail⟩ := htext
      generalize [Char.ofNat 10].intercalate
        ((instr' :: program).map (NPUInstruction.repr T)) = text at htail
      have hhead : ∀ c ∈ text.head?, isSpace c = false := by
        intro c hc
        rw [htail] at hc
        obtain rfl := Option.some_inj.mp hc
        exact hd
      have hne : strip text ≠ [] :=
        List.ne_nil_of_mem (mem_strip (by rw [htail]; exact List.mem_cons_self) hd)
      -- only the end of the last line loses white space
      have hkeep : strip (instr.repr T ++ Char.ofNat 10 :: text) =
          instr.repr T ++ Char.ofNat 10 :: strip text := by
        obtain ⟨after, hafter, hsplit⟩ := exists_strip_of_head hhead
        conv_lhs => rw [hsplit]
        rw [← List.cons_append, ← List.append_assoc, strip_append_spaces hafter]
        refine strip_of_bounds (fun c' hc' => ?_) fun c' hc' => ?_
        · rw [hrepr] at hc'
          obtain rfl := Option.some_inj.mp hc'
          exact hc
        · rw [← List.singleton_append, ← List.append_assoc,
            List.getLast?_append_of_ne_nil _ hne] at hc'
          exact getLast_strip hc'
      rw [hkeep, splitLines_append hinstr, List.mapM_cons]

/-- The names of parsed operands are clean. -/
theorem parseIsaProgram_cleanKey {text : List Char} {parsed : List NPUInstruction}
    (h : parseIsaProgram T text = .ok parsed) :
    ∀ instr ∈ parsed, ∀ key ∈ instr.operands.keys, CleanKey key := by
  intro instr hinstr
  obtain ⟨instrs, hinstrs, hfilter⟩ := bind_eq_ok.mp h
  obtain rfl := Except.ok.inj hfilter
  have hmem := List.mem_of_mem_filter hinstr
  obtain ⟨line, hline, hparse⟩ := exists_mem_of_forall₂ (mapM_eq_ok.mp hinstrs).flip hmem
  unfold parseInstruction at hparse
  dsimp only at hparse
  split_ifs at hparse with hcomment
  · obtain rfl := Except.ok.inj hparse
    intro key hkey
    cases hkey
  · obtain ⟨opcode, -, hparse⟩ := bind_eq_ok.mp hparse
    obtain ⟨operands, hoperands, hparse⟩ := bind_eq_ok.mp hparse
    obtain rfl := Except.ok.inj hparse
    refine parseOperands_cleanKey T (fun c hc => ?_) hoperands (fun key hkey => by cases hkey)
    exact not_mem_line hline (mem_of_mem_strip (mem_splitWord hc))

/-- The number of operands in a program. -/
def operandCount (program : List NPUInstruction) : ℕ :=
  (program.map fun instr => instr.operands.entries.length).sum

/-- What is left out has no operands. -/
theorem operandCount_filter (program : List NPUInstruction) :
    operandCount (program.filter NPUInstruction.kept) = operandCount program := by
  unfold operandCount
  induction program with
  | nil => rfl
  | cons instr program ih =>
    rw [List.filter_cons]
    split_ifs with hkept
    · rw [List.map_cons, List.map_cons, List.sum_cons, List.sum_cons, ih]
    · have hnil : instr.operands.entries = [] := by
        by_contra hne
        exact hkept (by simp [NPUInstruction.kept, hne])
      rw [List.map_cons, List.sum_cons, ih, hnil, List.length_nil, Nat.zero_add]

theorem operandCount_eq_of_content {l l' : List NPUInstruction}
    (h : l.map NPUInstruction.content = l'.map NPUInstruction.content) :
    operandCount l = operandCount l' := by
  have hcount : ∀ l : List NPUInstruction, operandCount l =
      ((l.map NPUInstruction.content).map fun content => content.2.entries.length).sum := by
    intro l
    rw [List.map_map]
    rfl
  rw [hcount, hcount, h]

/-- A printed program gives back no fewer operands, and exactly as many only if every
instruction is printable. -/
theorem operandCount_le {program instrs : List NPUInstruction}
    (hclean : ∀ instr ∈ program, ∀ key ∈ instr.operands.keys, CleanKey key)
    (h : List.Forall₂ (fun instr parsed => parseInstruction T (instr.repr T) = .ok parsed)
      program instrs) :
    operandCount program ≤ operandCount instrs ∧
      (operandCount instrs = operandCount program → ∀ instr ∈ program, Printable instr) := by
  unfold operandCount
  induction h with
  | nil => exact ⟨le_rfl, fun _ => List.forall_mem_nil _⟩
  | cons hparse _ ih =>
    obtain ⟨hinstr, hprogram⟩ := List.forall_mem_cons.mp hclean
    obtain ⟨hle, hprintable⟩ := parseInstruction_length T hinstr hparse
    obtain ⟨hles, hprintables⟩ := ih hprogram
    simp only [List.map_cons, List.sum_cons]
    refine ⟨by omega, fun heq => List.forall_mem_cons.mpr ⟨hprintable (by omega), ?_⟩⟩
    exact hprintables (by omega)

/-- The names of operands that come back are clean. -/
theorem RoundTrips.cleanKey {program : List NPUInstruction} (h : RoundTrips T program) :
    ∀ instr ∈ program, ∀ key ∈ instr.operands.keys, CleanKey key := by
  obtain ⟨parsed, hparsed, hcontent⟩ := h
  intro instr hinstr key hkey
  have hkept : instr.kept = true := by
    have hne : instr.operands.entries ≠ [] := by
      intro hnil
      rw [Dict.keys, hnil] at hkey
      cases hkey
    simp [NPUInstruction.kept, hne]
  have hmem : instr.content ∈ parsed.map NPUInstruction.content := by
    rw [hcontent]
    exact List.mem_map_of_mem (List.mem_filter.mpr ⟨hinstr, hkept⟩)
  obtain ⟨instr', hinstr', heq⟩ := List.mem_map.mp hmem
  refine parseIsaProgram_cleanKey T hparsed instr' hinstr' key ?_
  rwa [show instr'.operands = instr.operands from congrArg Prod.snd heq]

/-- Reading a printed program gives it back exactly when each instruction is printable. -/
theorem parseIsaProgram_roundTrips_iff (program : List NPUInstruction)
    (hline : ∀ instr ∈ program, SingleLine instr) :
    RoundTrips T program ↔ ∀ instr ∈ program, Printable instr := by
  constructor
  · intro h
    have hclean := h.cleanKey
    obtain ⟨parsed, hparsed, hcontent⟩ := h
    obtain ⟨instrs, hinstrs, hfilter⟩ := bind_eq_ok.mp hparsed
    obtain rfl := Except.ok.inj hfilter
    rw [mapM_splitLines T fun instr hinstr =>
      isLineBreak_of_mem_repr T (hclean instr hinstr) (hline instr hinstr)] at hinstrs
    refine (operandCount_le T hclean (mapM_eq_ok.mp hinstrs)).2 ?_
    rw [← operandCount_filter instrs, ← operandCount_filter program]
    exact operandCount_eq_of_content hcontent
  · intro h
    have hread : (splitLines (strip (programText T program))).mapM (parseInstruction T) =
        .ok (program.map fun instr => { opcode := instr.opcode, operands := instr.operands }) := by
      rw [mapM_splitLines T fun instr hinstr =>
        isLineBreak_of_mem_repr T (h instr hinstr).cleanKey (hline instr hinstr), mapM_eq_ok,
        List.forall₂_map_right_iff, List.forall₂_same]
      exact fun instr hinstr => parseInstruction_printable T (h instr hinstr)
    refine ⟨_, by rw [parseIsaProgram, hread]; rfl, ?_⟩
    rw [List.filter_map, List.map_map]
    rfl

end Text

instance (key : String) : Decidable (CleanKey key) :=
  @instDecidableAnd _ _ _ (List.decidableBAll _ _)

instance (instr : NPUInstruction) : Decidable (SingleLine instr) := List.decidableBAll _ _

instance (instr : NPUInstruction) : Decidable (Printable instr) :=
  inferInstanceAs (Decidable (if instr.operands.entries = [] then '=' ∉ instr.comment.toList
    else instr.comment = "" ∧ ∀ key ∈ instr.operands.keys, CleanKey key))

/-- The digits and letters of ASCII. -/
def asciiData : UnicodeData where
  decimal c := if c.isDigit then some (c.toNat - 48) else none
  lower l := l.map Char.toLower
  decimal_digit _ hc := if_pos hc
  decimal_hash := rfl
  lower_ascii _ _ := rfl

/-- A comment without operands does no harm. -/
theorem commented_roundTrips :
    RoundTrips asciiData [{ opcode := .vadd, operands := .ofList [("sa", 0), ("da", -16)] },
      { opcode := .barrier, comment := "wait, then go on" }, { opcode := .nop }] :=
  (parseIsaProgram_roundTrips_iff asciiData _ (by decide +kernel)).mpr (by decide +kernel)

/-- An operand with a comment behind it. -/
def commentedRelu : List NPUInstruction :=
  [{ opcode := .relu, operands := .ofList [("da", 1)], comment := "activation" }]

/-- The comment behind an operand is read as a part of it. -/
theorem comment_not_roundTrips :
    ¬∀ program : List NPUInstruction, (∀ instr ∈ program, SingleLine instr) →
      RoundTrips asciiData program := by
  intro h
  obtain ⟨parsed, hparsed, -⟩ := h commentedRelu (by decide +kernel)
  have hnone : (parseIsaProgram asciiData (programText asciiData commentedRelu)).toOption.isSome =
      false := by decide +kernel
  rw [hparsed] at hnone
  cases hnone

end Core

end NpuArc
