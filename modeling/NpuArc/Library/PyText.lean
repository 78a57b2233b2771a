import Mathlib.Data.List.DropRight
import Mathlib.Data.Nat.Digits.Defs
import Mathlib.Tactic.Common

/-!
# Text

Stripping, splitting into lines, words and parts, and literals of integers, on lists of
characters and in the manner of Python. What the Unicode database says about digits and lower
case is a parameter that agrees with ASCII.
-/

namespace NpuArc

/-- The white space that stripping a string removes. -/
def isSpace (c : Char) : Bool :=
  let n := c.toNat
  (9 ≤ n && n ≤ 13) || (28 ≤ n && n ≤ 32) || n = 133 || n = 160 || n = 5760 ||
    (8192 ≤ n && n ≤ 8202) || n = 8232 || n = 8233 || n = 8239 || n = 8287 || n = 12288

/-- The characters that end a line. -/
def isLineBreak (c : Char) : Bool :=
  let n := c.toNat
  (10 ≤ n && n ≤ 13) || (28 ≤ n && n ≤ 30) || n = 133 || n = 8232 || n = 8233

/-- Remove the white space at both ends. -/
def strip (l : List Char) : List Char := (l.dropWhile isSpace).rdropWhile isSpace

/-- The first word and what follows it, without the white space between them. -/
def splitWord (l : List Char) : List Char × List Char :=
  let l := l.dropWhile isSpace
  (l.takeWhile (!isSpace ·), (l.dropWhile (!isSpace ·)).dropWhile isSpace)

/-- The words of a text. -/
def words (l : List Char) : List (List Char) := (l.splitOnP isSpace).filter (!·.isEmpty)

/-- What stands before and behind the first place of a character. -/
def splitAtChar (c : Char) (l : List Char) : List Char × List Char :=
  (l.takeWhile (· ≠ c), (l.dropWhile (· ≠ c)).tail)

/-- Put a character before the first line. -/
def consLine (c : Char) : List (List Char) → List (List Char)
  | [] => [[c]]
  | line :: lines => (c :: line) :: lines

/-- The lines of a text. A line feed behind a carriage return ends no further line. -/
def splitLinesFrom (afterReturn : Bool) : List Char → List (List Char)
  | [] => []
  | c :: l =>
    if afterReturn && c = Char.ofNat 10 then splitLinesFrom false l
    else if isLineBreak c then [] :: splitLinesFrom (c = Char.ofNat 13) l
    else consLine c (splitLinesFrom false l)

/-- The lines of a text. -/
def splitLines (l : List Char) : List (List Char) := splitLinesFrom false l

/-- What the Unicode database says about characters. -/
structure UnicodeData where
  decimal : Char → Option ℕ
  lower : List Char → List Char
  decimal_digit : ∀ c : Char, c.isDigit = true → decimal c = some (c.toNat - 48)
  decimal_hash : decimal '#' = none
  lower_ascii : ∀ l : List Char, (∀ c ∈ l, c.toNat < 128) → lower l = l.map Char.toLower

/-- A text has no word if it is white space. -/
theorem words_eq_nil {l : List Char} : words l = [] ↔ ∀ c ∈ l, isSpace c = true := by
  unfold words
  induction l with
  | nil => simp
  | cons c l ih =>
    rw [List.splitOnP_cons_eq_if_modifyHead, List.forall_mem_cons]
    by_cases hc : isSpace c = true
    · rw [if_pos hc, ← ih, List.filter_cons_of_neg (by simp)]
      exact (and_iff_right hc).symm
    · rw [if_neg hc]
      refine iff_of_false ?_ fun h => hc h.1
      cases hparts : l.splitOnP isSpace with
      | nil => exact absurd hparts (List.splitOnP_ne_nil _ _)
      | cons part parts => simp

/-- The characters of a list are tested one by one. -/
theorem forall_mem_of_all {p : Char → Prop} [DecidablePred p] {l : List Char}
    (h : (l.all fun c => decide (p c)) = true) : ∀ c ∈ l, p c :=
  fun c hc => of_decide_eq_true (List.all_eq_true.mp h c hc)

namespace UnicodeData

variable (T : UnicodeData)

/-- The value of a digit in a base. -/
def digitValue (base : ℕ) (c : Char) : Option ℕ :=
  match T.decimal c with
  | some d => if d < base then some d else none
  | none =>
    let n := c.toNat
    if base = 16 ∧ 97 ≤ n ∧ n ≤ 102 then some (n - 87)
    else if base = 16 ∧ 65 ≤ n ∧ n ≤ 70 then some (n - 55)
    else none

/-- The number of a sequence of digits, between which single underscores may stand. -/
def digits (base : ℕ) (l : List Char) : Option ℕ := do
  let groups := l.splitOn '_'
  if groups.any List.isEmpty then none
  let values ← groups.flatten.mapM (T.digitValue base)
  return values.foldl (fun acc d => base * acc + d) 0

/-- The integer that a text denotes in base ten. -/
def int10 (l : List Char) : Option ℤ :=
  match strip l with
  | '-' :: l => (T.digits 10 l).map fun n : ℕ => -(n : ℤ)
  | '+' :: l => (T.digits 10 l).map fun n : ℕ => (n : ℤ)
  | l => (T.digits 10 l).map fun n : ℕ => (n : ℤ)

/-- The integer that a text with the mark of a hexadecimal number denotes. -/
def int16 (l : List Char) : Option ℤ :=
  let l := l.drop 2
  let l := if l.head? = some '_' then l.tail else l
  (T.digits 16 l).map fun n : ℕ => (n : ℤ)

end UnicodeData

/-! ### Stripping -/

theorem mem_of_mem_strip {l : List Char} {c : Char} (h : c ∈ strip l) : c ∈ l :=
  (List.dropWhile_suffix isSpace).subset ((List.rdropWhile_prefix isSpace _).subset h)

/-- Stripping removes white space only. -/
theorem mem_strip {l : List Char} {c : Char} (h : c ∈ l) (hc : isSpace c = false) :
    c ∈ strip l := by
  rw [← List.takeWhile_append_dropWhile (p := isSpace) (l := l), List.mem_append] at h
  have hdrop : c ∈ l.dropWhile isSpace := h.resolve_left fun htake => by
    rw [List.mem_takeWhile_imp htake] at hc
    cases hc
  rw [← List.rdropWhile_append_rtakeWhile (p := isSpace) (l := l.dropWhile isSpace),
    List.mem_append] at hdrop
  refine hdrop.resolve_right fun htake => ?_
  rw [List.mem_rtakeWhile_imp htake] at hc
  cases hc

/-- Text that has white space at neither end is kept. -/
theorem strip_of_bounds {l : List Char} (hhead : ∀ c ∈ l.head?, isSpace c = false)
    (hlast : ∀ c ∈ l.getLast?, isSpace c = false) : strip l = l := by
  have hdrop : l.dropWhile isSpace = l := by
    cases l with
    | nil => rfl
    | cons c l => rw [List.dropWhile_cons_of_neg (by rw [hhead c rfl]; decide)]
  rw [strip, hdrop, List.rdropWhile_eq_self_iff]
  intro hne
  rw [hlast _ (List.getLast?_eq_some_getLast hne)]
  decide

/-- Stripped text begins with no white space. -/
theorem head_strip {l : List Char} {c : Char} (h : c ∈ (strip l).head?) : isSpace c = false := by
  rw [Option.mem_def, List.head?_eq_some_iff] at h
  obtain ⟨t, ht⟩ := h
  obtain ⟨s, hs⟩ := List.rdropWhile_prefix isSpace (l.dropWhile isSpace)
  have hcons : l.dropWhile isSpace = c :: (t ++ s) := by
    rw [← hs, ← List.cons_append, ← ht]
    rfl
  have hhead := List.head?_dropWhile_not isSpace l
  rw [hcons] at hhead
  simpa using hhead

/-- Stripped text ends with no white space. -/
theorem getLast_strip {l : List Char} {c : Char} (h : c ∈ (strip l).getLast?) :
    isSpace c = false := by
  rw [Option.mem_def] at h
  have hne : strip l ≠ [] := by
    intro hnil
    rw [hnil] at h
    cases h
  have hnot := List.rdropWhile_last_not isSpace (l.dropWhile isSpace) hne
  rw [List.getLast?_eq_some_getLast hne, Option.some_inj] at h
  rw [← h]
  exact Bool.eq_false_of_not_eq_true hnot

@[simp] theorem strip_strip (l : List Char) : strip (strip l) = strip l :=
  strip_of_bounds (fun _ => head_strip) fun _ => getLast_strip

/-- White space behind text is removed. -/
theorem strip_append_spaces {l spaces : List Char} (h : ∀ c ∈ spaces, isSpace c = true) :
    strip (l ++ spaces) = strip l := by
  induction spaces using List.reverseRecOn with
  | nil => rw [List.append_nil]
  | append_singleton spaces c ih =>
    have hc := h c (by simp)
    rw [← ih fun c' hc' => h c' (List.mem_append_left _ hc'), ← List.append_assoc]
    generalize l ++ spaces = l
    unfold strip
    cases hdrop : l.dropWhile isSpace with
    | nil =>
      rw [List.dropWhile_append, hdrop]
      simp [hc]
    | cons d t =>
      rw [List.dropWhile_append, hdrop]
      rw [if_neg (by simp), List.rdropWhile_concat_pos isSpace _ c hc]

/-- White space before text is removed. -/
theorem strip_cons_space {c : Char} (h : isSpace c = true) (l : List Char) :
    strip (c :: l) = strip l := by
  rw [strip, List.dropWhile_cons_of_pos h, strip]

/-- Stripping takes white space off both ends. -/
theorem exists_strip (l : List Char) : ∃ before after, (∀ c ∈ before, isSpace c = true) ∧
    (∀ c ∈ after, isSpace c = true) ∧ l = before ++ (strip l ++ after) := by
  refine ⟨l.takeWhile isSpace, (l.dropWhile isSpace).rtakeWhile isSpace,
    fun c hc => List.mem_takeWhile_imp hc, fun c hc => List.mem_rtakeWhile_imp hc, ?_⟩
  rw [strip, List.rdropWhile_append_rtakeWhile, List.takeWhile_append_dropWhile]

/-- Text that begins with no white space loses it at its end only. -/
theorem exists_strip_of_head {l : List Char} (hhead : ∀ c ∈ l.head?, isSpace c = false) :
    ∃ after, (∀ c ∈ after, isSpace c = true) ∧ l = strip l ++ after := by
  obtain ⟨before, after, hbefore, hafter, hl⟩ := exists_strip l
  cases before with
  | nil => exact ⟨after, hafter, hl⟩
  | cons c before =>
    have hc := hhead c (by rw [hl]; rfl)
    rw [hbefore c List.mem_cons_self] at hc
    cases hc

/-- Text that neither begins nor ends with white space stays before text that is stripped. -/
theorem strip_append {a b : List Char} (hhead : ∀ c ∈ a.head?, isSpace c = false)
    (hlast : ∀ c ∈ a.getLast?, isSpace c = false) (hne : a ≠ []) :
    strip (a ++ b) = a ++ b.rdropWhile isSpace := by
  obtain ⟨c, a', rfl⟩ := List.exists_cons_of_ne_nil hne
  have hc := hhead c rfl
  rw [strip, List.cons_append, List.dropWhile_cons_of_neg (by rw [hc]; decide)]
  induction b using List.reverseRecOn with
  | nil =>
    rw [List.append_nil, List.rdropWhile_nil, List.append_nil, List.rdropWhile_eq_self_iff]
    intro hcons
    rw [hlast _ (List.getLast?_eq_some_getLast hcons)]
    decide
  | append_singleton b d ih =>
    rw [← List.append_assoc, ← List.cons_append]
    by_cases hd : isSpace d = true
    · rw [List.rdropWhile_concat_pos isSpace _ d hd, List.rdropWhile_concat_pos isSpace _ d hd,
        ih]
    · rw [List.rdropWhile_concat_neg isSpace _ d hd, List.rdropWhile_concat_neg isSpace _ d hd,
        List.cons_append, List.cons_append, List.append_assoc]

/-- Stripping the end first changes nothing. -/
theorem strip_rdropWhile (l : List Char) : strip (l.rdropWhile isSpace) = strip l := by
  conv_rhs => rw [← List.rdropWhile_append_rtakeWhile (p := isSpace) (l := l)]
  exact (strip_append_spaces fun c hc => List.mem_rtakeWhile_imp hc).symm

/-- The first word of a text that begins with it. -/
theorem splitWord_strip {word : List Char} {space : Char} (hword : ∀ c ∈ word, isSpace c = false)
    (hne : word ≠ []) (hspace : isSpace space = true) (rest : List Char) :
    splitWord (strip (word ++ space :: rest)) = (word, strip rest) := by
  have hhead : ∀ c ∈ word.head?, isSpace c = false := fun c hc =>
    hword c (List.mem_of_mem_head? hc)
  have htake : ∀ c ∈ word, (!isSpace c) = true := fun c hc => by rw [hword c hc]; rfl
  obtain ⟨before, after, hbefore, hafter, hrest⟩ := exists_strip rest
  have hdrop : ∀ l : List Char, (word ++ l).dropWhile isSpace = word ++ l := by
    intro l
    obtain ⟨c, word, rfl⟩ := List.exists_cons_of_ne_nil hne
    rw [List.cons_append, List.dropWhile_cons_of_neg (by rw [hhead c rfl]; decide)]
  have hstrip : strip (word ++ space :: rest) = strip (word ++ space :: (before ++ strip rest)) := by
    conv_lhs => rw [hrest]
    rw [← List.append_assoc before, ← List.cons_append, ← List.append_assoc]
    exact strip_append_spaces hafter
  rw [hstrip]
  by_cases hnil : strip rest = []
  · have hspaces : ∀ c ∈ space :: before, isSpace c = true :=
      List.forall_mem_cons.mpr ⟨hspace, hbefore⟩
    rw [hnil, List.append_nil, strip_append_spaces hspaces,
      strip_of_bounds hhead fun c hc => hword c (List.mem_of_mem_getLast? hc), splitWord]
    have hself := hdrop []
    rw [List.append_nil] at hself
    rw [hself, List.takeWhile_eq_self_iff.mpr htake, List.dropWhile_eq_nil_iff.mpr htake]
    rfl
  · have hkeep : strip (word ++ space :: (before ++ strip rest)) =
        word ++ space :: (before ++ strip rest) := by
      refine strip_of_bounds (fun c hc => ?_) fun c hc => ?_
      · obtain ⟨d, word, rfl⟩ := List.exists_cons_of_ne_nil hne
        exact hhead c hc
      · rw [← List.cons_append, ← List.append_assoc, List.getLast?_append_of_ne_nil _ hnil] at hc
        exact getLast_strip hc
    rw [hkeep, splitWord]
    rw [hdrop, List.takeWhile_append_of_pos htake, List.dropWhile_append_of_pos htake,
      List.takeWhile_cons_of_neg (by rw [hspace]; decide), List.append_nil,
      List.dropWhile_cons_of_neg (by rw [hspace]; decide), List.dropWhile_cons_of_pos hspace,
      List.dropWhile_append_of_pos hbefore]
    congr 1
    cases hcons : strip rest with
    | nil => rfl
    | cons d t =>
      have hd : isSpace d = false := head_strip (by rw [hcons]; rfl)
      rw [List.dropWhile_cons_of_neg (by rw [hd]; decide)]

theorem mem_splitWord {l : List Char} {c : Char} (h : c ∈ (splitWord l).2) : c ∈ l :=
  (List.dropWhile_suffix _).subset ((List.dropWhile_suffix _).subset
    ((List.dropWhile_suffix _).subset h))

theorem splitAtChar_append {c : Char} {a : List Char} (h : c ∉ a) (b : List Char) :
    splitAtChar c (a ++ c :: b) = (a, b) := by
  have ha : ∀ d ∈ a, decide (d ≠ c) = true := fun d hd =>
    decide_eq_true fun heq => h (heq ▸ hd)
  rw [splitAtChar, List.takeWhile_append_of_pos ha, List.dropWhile_append_of_pos ha,
    List.takeWhile_cons_of_neg (by simp), List.dropWhile_cons_of_neg (by simp), List.append_nil]
  rfl

/-! ### Lines -/

theorem not_mem_line {afterReturn : Bool} {l line : List Char}
    (h : line ∈ splitLinesFrom afterReturn l) {c : Char} (hc : c ∈ line) :
    isLineBreak c = false := by
  induction l generalizing afterReturn line with
  | nil => cases h
  | cons d l ih =>
    rw [splitLinesFrom] at h
    split_ifs at h with h1 h2
    · exact ih h hc
    · rcases List.mem_cons.mp h with rfl | h
      · cases hc
      · exact ih h hc
    · have hd := Bool.eq_false_of_not_eq_true h2
      cases hlines : splitLinesFrom false l with
      | nil =>
        rw [hlines] at h
        obtain rfl := List.mem_singleton.mp h
        obtain rfl := List.mem_singleton.mp hc
        exact hd
      | cons first rest =>
        rw [hlines] at h
        rcases List.mem_cons.mp h with rfl | h
        · rcases List.mem_cons.mp hc with rfl | hc
          · exact hd
          · have hfirst : first ∈ splitLinesFrom false l := by
              rw [hlines]
              exact List.mem_cons_self
            exact ih hfirst hc
        · exact ih (by rw [hlines]; exact List.mem_cons_of_mem _ h) hc

/-- A line without breaks is the first one before a line feed. -/
theorem splitLines_append {line : List Char} (h : ∀ c ∈ line, isLineBreak c = false)
    (l : List Char) :
    splitLines (line ++ Char.ofNat 10 :: l) = line :: splitLines l := by
  unfold splitLines
  induction line with
  | nil => rfl
  | cons c line ih =>
    obtain ⟨hc, hline⟩ := List.forall_mem_cons.mp h
    rw [List.cons_append, splitLinesFrom, Bool.false_and, if_neg Bool.false_ne_true, hc,
      if_neg Bool.false_ne_true, ih hline]
    rfl

/-- A text without breaks is one line, if it is not empty. -/
theorem splitLines_of_no_break {line : List Char} (h : ∀ c ∈ line, isLineBreak c = false)
    (hne : line ≠ []) : splitLines line = [line] := by
  unfold splitLines
  induction line with
  | nil => exact absurd rfl hne
  | cons c line ih =>
    obtain ⟨hc, hline⟩ := List.forall_mem_cons.mp h
    rw [splitLinesFrom, Bool.false_and, if_neg Bool.false_ne_true, hc, if_neg Bool.false_ne_true]
    cases line with
    | nil => rfl
    | cons d line =>
      rw [ih hline (List.cons_ne_nil d line)]
      rfl

/-! ### Parts -/

/-- What joined parts consist of. -/
theorem mem_intercalate {x c : Char} {parts : List (List Char)} (h : c ∈ [x].intercalate parts) :
    c = x ∨ c ∈ parts.flatten := by
  induction parts with
  | nil => cases h
  | cons part parts ih =>
    cases parts with
    | nil =>
      rw [List.intercalate_singleton] at h
      exact .inr (List.mem_append_left _ h)
    | cons next parts =>
      rw [List.intercalate_cons_cons, List.mem_append, List.mem_append, List.mem_singleton] at h
      rcases h with (h | h) | h
      · exact .inr (List.mem_append_left _ h)
      · exact .inl h
      · exact (ih h).imp_right (List.mem_append_right _)

/-- Text is read part by part. -/
theorem parts_induction (c : Char) {motive : List Char → Prop}
    (last : ∀ part, c ∉ part → motive part)
    (next : ∀ part rest, c ∉ part → motive rest → motive (part ++ c :: rest)) :
    ∀ l, motive l := by
  intro l
  induction hn : l.length using Nat.strong_induction_on generalizing l with
  | _ n ih =>
    by_cases hmem : c ∈ l
    · obtain ⟨part, rest, rfl, hpart⟩ := List.eq_append_cons_of_mem hmem
      refine next part rest hpart (ih rest.length ?_ rest rfl)
      rw [← hn, List.length_append, List.length_cons]
      omega
    · exact last l hmem

/-! ### Decimal literals -/

theorem toList_toString_ofNat (n : ℕ) :
    (toString (Int.ofNat n)).toList = Nat.toDigits 10 n := by
  simp [toString, Int.repr]

theorem toList_toString_negSucc (n : ℕ) :
    (toString (Int.negSucc n)).toList = '-' :: Nat.toDigits 10 (n + 1) := by
  simp [toString, Int.repr]

theorem isSpace_of_isDigit {c : Char} (h : c.isDigit = true) : isSpace c = false := by
  rw [Char.isDigit, Bool.and_eq_true, decide_eq_true_eq, decide_eq_true_eq] at h
  have hlow : 48 ≤ c.toNat := UInt32.le_iff_toNat_le.mp h.1
  have hhigh : c.toNat ≤ 57 := UInt32.le_iff_toNat_le.mp h.2
  simp [isSpace]
  omega

/-- The characters of a printed integer. -/
theorem mem_toString {i : ℤ} {c : Char} (h : c ∈ (toString i).toList) :
    c = '-' ∨ c.isDigit = true := by
  cases i with
  | ofNat n =>
    rw [toList_toString_ofNat] at h
    exact .inr (Nat.isDigit_of_mem_toDigits (by decide) (by decide) h)
  | negSucc n =>
    rw [toList_toString_negSucc] at h
    exact (List.mem_cons.mp h).imp_right
      (Nat.isDigit_of_mem_toDigits (by decide) (by decide))

theorem isSpace_of_mem_toString {i : ℤ} {c : Char} (h : c ∈ (toString i).toList) :
    isSpace c = false := by
  rcases mem_toString h with rfl | hdigit
  · decide
  · exact isSpace_of_isDigit hdigit

theorem strip_toString (i : ℤ) : strip (toString i).toList = (toString i).toList :=
  strip_of_bounds (fun _ hc => isSpace_of_mem_toString (List.mem_of_mem_head? hc))
    fun _ hc => isSpace_of_mem_toString (List.mem_of_mem_getLast? hc)

namespace UnicodeData

variable (T : UnicodeData)

theorem digitValue_of_isDigit {c : Char} (h : c.isDigit = true) :
    T.digitValue 10 c = some (c.toNat - 48) := by
  have hdecimal := T.decimal_digit c h
  rw [Char.isDigit, Bool.and_eq_true, decide_eq_true_eq, decide_eq_true_eq] at h
  have hhigh : c.toNat ≤ 57 := UInt32.le_iff_toNat_le.mp h.2
  rw [digitValue, hdecimal]
  exact if_pos (by omega)

theorem mapM_digitValue {l : List Char} (h : ∀ c ∈ l, c.isDigit = true) :
    l.mapM (T.digitValue 10) = some (l.map fun c => c.toNat - 48) := by
  induction l with
  | nil => rfl
  | cons c l ih =>
    obtain ⟨hc, hl⟩ := List.forall_mem_cons.mp h
    rw [List.mapM_cons, T.digitValue_of_isDigit hc, ih hl]
    rfl

/-- The decimal digits of a number denote it. -/
theorem digits_toDigits (n : ℕ) : T.digits 10 (Nat.toDigits 10 n) = some n := by
  have hdigit : ∀ c ∈ Nat.toDigits 10 n, c.isDigit = true :=
    fun c hc => Nat.isDigit_of_mem_toDigits (by decide) (by decide) hc
  have hsplit : (Nat.toDigits 10 n).splitOn '_' = [Nat.toDigits 10 n] := by
    have h := @List.splitOn_intercalate _ [Nat.toDigits 10 n] _ _ '_'
      (fun l hl hmem => ?_) (List.cons_ne_nil _ _)
    · rwa [List.intercalate_singleton] at h
    · obtain rfl := List.mem_singleton.mp hl
      exact absurd (hdigit '_' hmem) (by decide)
  have hne : (Nat.toDigits 10 n).isEmpty = false := by
    rw [List.isEmpty_eq_false_iff]
    exact Nat.toDigits_ne_nil
  rw [digits, hsplit]
  dsimp only
  rw [List.any_cons, hne, List.any_nil, Bool.or_false, if_neg Bool.false_ne_true,
    List.flatten_singleton, T.mapM_digitValue hdigit]
  have hfold := Nat.ofDigitChars_ten_toDigits (n := n)
  rw [Nat.ofDigitChars] at hfold
  change some (List.foldl _ 0 (List.map _ _)) = _
  rw [List.foldl_map]
  exact congrArg some hfold

/-- A digit is no number sign. -/
theorem mapM_digitValue_eq_none {base : ℕ} {l : List Char} (h : '#' ∈ l) :
    l.mapM (T.digitValue base) = none := by
  induction l with
  | nil => cases h
  | cons c l ih =>
    rw [List.mapM_cons]
    rcases List.mem_cons.mp h with rfl | h
    · have hvalue : T.digitValue base '#' = none := by
        rw [digitValue, T.decimal_hash]
        dsimp only
        rw [if_neg fun hhash => absurd hhash.2.1 (by decide),
          if_neg fun hhash => absurd hhash.2.1 (by decide)]
      rw [hvalue]
      rfl
    · rw [ih h]
      cases T.digitValue base c <;> rfl

/-- A literal does not have a number sign. -/
theorem digits_eq_none {base : ℕ} {l : List Char} (h : '#' ∈ l) : T.digits base l = none := by
  have hmem : '#' ∈ (l.splitOn '_').flatten := by
    have hjoin : ['_'].intercalate (l.splitOn '_') = l := List.intercalate_splitOn '_'
    rw [← hjoin] at h
    rcases mem_intercalate h with heq | h
    · exact absurd heq (by decide)
    · exact h
  rw [digits]
  dsimp only
  rw [T.mapM_digitValue_eq_none hmem]
  split_ifs <;> rfl

theorem int10_eq_none {l : List Char} (h : '#' ∈ l) : T.int10 l = none := by
  have hmem : '#' ∈ strip l := mem_strip h (by decide)
  rw [int10]
  split
  · rename_i t ht
    rw [ht, List.mem_cons] at hmem
    rw [T.digits_eq_none (hmem.resolve_left (by decide))]
    rfl
  · rename_i t ht
    rw [ht, List.mem_cons] at hmem
    rw [T.digits_eq_none (hmem.resolve_left (by decide))]
    rfl
  · rw [T.digits_eq_none hmem]
    rfl

theorem int16_eq_none {l : List Char} (h : '#' ∈ l.drop 2) : T.int16 l = none := by
  rw [int16]
  split_ifs with hhead
  · obtain ⟨t, ht⟩ := List.head?_eq_some_iff.mp hhead
    rw [ht, List.mem_cons] at h
    rw [ht, List.tail_cons, T.digits_eq_none (h.resolve_left (by decide))]
    rfl
  · rw [T.digits_eq_none h]
    rfl

/-- The printed form of an integer denotes it. -/
theorem int10_toString (i : ℤ) : T.int10 (toString i).toList = some i := by
  rw [int10, strip_toString]
  cases i with
  | ofNat n =>
    have hdigit : ∀ c ∈ Nat.toDigits 10 n, c.isDigit = true :=
      fun c hc => Nat.isDigit_of_mem_toDigits (by decide) (by decide) hc
    rw [toList_toString_ofNat]
    split
    · rename_i t ht
      rw [ht] at hdigit
      exact absurd (hdigit '-' List.mem_cons_self) (by decide)
    · rename_i t ht
      rw [ht] at hdigit
      exact absurd (hdigit '+' List.mem_cons_self) (by decide)
    · rw [T.digits_toDigits]
      rfl
  | negSucc n =>
    rw [toList_toString_negSucc]
    change (T.digits 10 (Nat.toDigits 10 (n + 1))).map _ = _
    rw [T.digits_toDigits]
    rfl

end UnicodeData

end NpuArc
