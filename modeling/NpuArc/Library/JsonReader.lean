import NpuArc.Library.Json

/-!
# Reading JSON texts

A reader for JSON texts that builds its results with hooks: one for each kind of value, and
one for the text of a number with a fraction or an exponent. It skips white space, decodes
escapes and pairs of surrogates, and fails on a surrogate without its partner, since a string
holds characters only. What it builds from the compact text of a value is the value that the
hooks build.
-/

namespace NpuArc

namespace Json

/-- How the results of a reader are built. -/
structure Hooks (V : Type) where
  null : V
  bool : Bool → V
  int : ℤ → V
  float : String → V
  str : String → V
  list : List V → V
  dict : List (String × V) → V

variable {V : Type}

mutual

/-- The result that hooks build from a value. -/
def Hooks.build (h : Hooks V) : Json → V
  | .null => h.null
  | .bool b => h.bool b
  | .int n => h.int n
  | .str s => h.str s
  | .list l => h.list (h.buildList l)
  | .dict l => h.dict (h.buildMembers l)

def Hooks.buildList (h : Hooks V) : List Json → List V
  | [] => []
  | a :: l => h.build a :: h.buildList l

def Hooks.buildMembers (h : Hooks V) : List (String × Json) → List (String × V)
  | [] => []
  | e :: l => (e.1, h.build e.2) :: h.buildMembers l

end

/-! ### White space and strings -/

/-- The white space of JSON: space, tab, newline and carriage return. -/
def isBlank (c : Char) : Bool := c.toNat ∈ [32, 9, 10, 13]

/-- The rest of a text after white space. -/
def skipBlanks (s : List Char) : List Char := s.dropWhile isBlank

/-- The value of a hexadecimal digit. -/
def hexValue (c : Char) : Option ℕ :=
  if c.isDigit then some (c.toNat - 48)
  else if 'a' ≤ c ∧ c ≤ 'f' then some (c.toNat - 87)
  else if 'A' ≤ c ∧ c ≤ 'F' then some (c.toNat - 55)
  else none

/-- Read four hexadecimal digits. -/
def readHex4 : List Char → Option (ℕ × List Char)
  | a :: b :: c :: d :: s => do
    let a ← hexValue a
    let b ← hexValue b
    let c ← hexValue c
    let d ← hexValue d
    some (4096 * a + 256 * b + 16 * c + d, s)
  | _ => none

/-- Read the partner of a high surrogate. -/
def readPartner (high : ℕ) : List Char → Option (Char × List Char)
  | c :: d :: s =>
    if c = backslash ∧ d = 'u' then do
      let (low, s) ← readHex4 s
      if 56320 ≤ low ∧ low ≤ 57343 then
        some (Char.ofNat (65536 + 1024 * (high - 55296) + (low - 56320)), s)
      else none
    else none
  | _ => none

/-- Read the code units of a numeric escape. -/
def readUnicode (s : List Char) : Option (Char × List Char) := do
  let (n, s) ← readHex4 s
  if 55296 ≤ n ∧ n ≤ 56319 then readPartner n s
  else if 56320 ≤ n ∧ n ≤ 57343 then none
  else some (Char.ofNat n, s)

/-- The character of a short escape. A slash may be escaped as well. -/
def unescape (letter : Char) : Option Char :=
  if letter = '/' then some '/'
  else (shortEscapes.find? fun e => e.2 == letter).map fun e => Char.ofNat e.1

/-- Read what follows a backslash. -/
def readEscape : List Char → Option (Char × List Char)
  | [] => none
  | c :: s => if c = 'u' then readUnicode s else (unescape c).map fun d => (d, s)

/-- Read the characters of a string up to its closing quote. -/
def readChars : ℕ → List Char → Option (List Char × List Char)
  | 0, _ => none
  | _ + 1, [] => none
  | n + 1, c :: s =>
    if c = quote then some ([], s)
    else if c = backslash then do
      let (d, s) ← readEscape s
      let (l, s) ← readChars n s
      some (d :: l, s)
    else if c.toNat < 32 then none
    else do
      let (l, s) ← readChars n s
      some (c :: l, s)

/-- Read a string after its opening quote. -/
def readString (s : List Char) : Option (String × List Char) :=
  (readChars s.length s).map fun r => (String.ofList r.1, r.2)

/-! ### Numbers -/

/-- The digits before the fraction: a zero, or digits that do not start with one. -/
def integerDigits : List Char → List Char
  | '0' :: _ => ['0']
  | s => s.takeWhile Char.isDigit

/-- The text of a fraction, if there is one. -/
def fractionText : List Char → List Char
  | '.' :: s => if s.takeWhile Char.isDigit = [] then [] else '.' :: s.takeWhile Char.isDigit
  | _ => []

/-- The sign of an exponent. -/
def signText : List Char → List Char
  | '+' :: _ => ['+']
  | '-' :: _ => ['-']
  | _ => []

/-- The text of an exponent, if there is one. -/
def exponentText : List Char → List Char
  | [] => []
  | c :: s =>
    let digits := (s.drop (signText s).length).takeWhile Char.isDigit
    if (c = 'e' ∨ c = 'E') ∧ digits ≠ [] then c :: (signText s ++ digits) else []

/-- Read a number without its sign. -/
def readMagnitude (h : Hooks V) (negative : Bool) (s : List Char) : Option (V × List Char) :=
  let digits := integerDigits s
  if digits = [] then none
  else
    let s := s.drop digits.length
    let fraction := fractionText s
    let exponent := exponentText (s.drop fraction.length)
    if fraction = [] ∧ exponent = [] then
      let n : ℤ := Nat.ofDigitChars 10 digits 0
      some (h.int (if negative then -n else n), s)
    else
      some (h.float (String.ofList ((if negative then ['-'] else []) ++ digits ++ fraction ++
        exponent)), s.drop (fraction.length + exponent.length))

/-! ### Values -/

/-- Read a word. -/
def readWord (word : String) (v : V) (s : List Char) : Option (V × List Char) :=
  if s.take word.length = word.toList then some (v, s.drop word.length) else none

/-- Read a value that is neither a string, a list nor an object. -/
def readPlain (h : Hooks V) (s : List Char) : Option (V × List Char) :=
  match s.head? with
  | some 'n' => readWord "null" h.null s
  | some 't' => readWord "true" (h.bool true) s
  | some 'f' => readWord "false" (h.bool false) s
  | some 'N' => readWord "NaN" (h.float "NaN") s
  | some 'I' => readWord "Infinity" (h.float "Infinity") s
  | some '-' =>
    (readWord "-Infinity" (h.float "-Infinity") s).or (readMagnitude h true s.tail)
  | _ => readMagnitude h false s

/-- Read the elements of a list, of which there is at least one. -/
def readElements (readValue : List Char → Option (V × List Char)) :
    ℕ → List Char → Option (List V × List Char)
  | 0, _ => none
  | n + 1, s => do
    let (v, s) ← readValue s
    match skipBlanks s with
    | ']' :: s => some ([v], s)
    | ',' :: s => do
      let (l, s) ← readElements readValue n (skipBlanks s)
      some (v :: l, s)
    | _ => none

/-- Read a key, the colon and the value after it. -/
def readMember (readValue : List Char → Option (V × List Char)) (s : List Char) :
    Option ((String × V) × List Char) := do
  if s.head? ≠ some quote then none
  let (key, s) ← readString s.tail
  if (skipBlanks s).head? ≠ some ':' then none
  let (v, s) ← readValue (skipBlanks (skipBlanks s).tail)
  some ((key, v), s)

/-- Read the members of an object, of which there is at least one. -/
def readMembers (readValue : List Char → Option (V × List Char)) :
    ℕ → List Char → Option (List (String × V) × List Char)
  | 0, _ => none
  | n + 1, s => do
    let (e, s) ← readMember readValue s
    let s := skipBlanks s
    if s.head? = some (Char.ofNat 125) then some ([e], s.tail)
    else if s.head? = some ',' then do
      let (l, s) ← readMembers readValue n (skipBlanks s.tail)
      some (e :: l, s)
    else none

/-- Read a value. The fuel bounds the depth of nested values. -/
def readValue (h : Hooks V) : ℕ → List Char → Option (V × List Char)
  | 0, _ => none
  | n + 1, s =>
    if s.head? = some quote then (readString s.tail).map fun r => (h.str r.1, r.2)
    else if s.head? = some '[' then
      let s := skipBlanks s.tail
      if s.head? = some ']' then some (h.list [], s.tail)
      else (readElements (readValue h n) s.length s).map fun r => (h.list r.1, r.2)
    else if s.head? = some (Char.ofNat 123) then
      let s := skipBlanks s.tail
      if s.head? = some (Char.ofNat 125) then some (h.dict [], s.tail)
      else (readMembers (readValue h n) s.length s).map fun r => (h.dict r.1, r.2)
    else readPlain h s

/-- Read a text that holds one value. -/
def loads (h : Hooks V) (s : List Char) : Option V := do
  let (v, s) ← readValue h (s.length + 1) (skipBlanks s)
  if skipBlanks s = [] then some v else none

/-! ### Reading strings back -/

theorem hexValue_digitChar {d : ℕ} (h : d < 16) : hexValue d.digitChar = some d := by
  have hall : ∀ d : Fin 16, hexValue d.val.digitChar = some d.val := by decide
  exact hall ⟨d, h⟩

theorem readHex4_hex4 {n : ℕ} (h : n < 65536) (s : List Char) :
    readHex4 (hex4 n ++ s) = some (n, s) := by
  have hdigit : ∀ m : ℕ, hexValue (m % 16).digitChar = some (m % 16) := fun m =>
    hexValue_digitChar (Nat.mod_lt _ (by decide))
  have hvalue : 4096 * (n / 4096 % 16) + 256 * (n / 256 % 16) + 16 * (n / 16 % 16) + n % 16 = n := by
    omega
  simp only [hex4, List.cons_append, List.nil_append, readHex4, hdigit, Option.bind_eq_bind,
    Option.bind_some, hvalue]

/-- Each short escape is undone. -/
theorem unescape_shortEscapes : ∀ e ∈ shortEscapes, unescape e.2 = some (Char.ofNat e.1) := by
  decide

/-- A code unit that is no surrogate is read back as its character. -/
theorem readChars_escapeUnit {c : Char} (hc : c.toNat < 65536) (n : ℕ) (s : List Char) :
    readChars (n + 1) (escapeUnit c.toNat ++ s) =
      (readChars n s).bind fun r => some (c :: r.1, r.2) := by
  have hvalid : c.toNat < 55296 ∨ 57343 < c.toNat ∧ c.toNat < 1114112 := c.valid
  have hquote : backslash ≠ quote := by decide
  unfold escapeUnit
  cases hshort : shortEscape c.toNat with
  | some letter =>
    have hmem := shortEscape_eq_some hshort
    have hread : readEscape (letter :: s) = some (c, s) := by
      rw [readEscape, if_neg (shortEscapes_letters.1 _ hmem), unescape_shortEscapes _ hmem,
        Option.map_some, Char.ofNat_toNat]
    simp only [List.cons_append, List.nil_append, readChars, if_neg hquote, if_true, hread,
      Option.bind_eq_bind, Option.bind_some]
  | none =>
    by_cases hplain : 32 ≤ c.toNat ∧ c.toNat ≤ 126
    · have hne := plain_ne hplain.2 hshort
      rw [Char.ofNat_toNat] at hne
      simp only [if_pos hplain, List.cons_append, List.nil_append, readChars, if_neg hne.1,
        if_neg hne.2, if_neg (not_lt.mpr hplain.1), Char.ofNat_toNat, Option.bind_eq_bind]
    · have hread : readEscape ('u' :: (hex4 c.toNat ++ s)) = some (c, s) := by
        rw [readEscape, if_pos rfl, readUnicode, readHex4_hex4 hc]
        simp only [Option.bind_eq_bind, Option.bind_some]
        rw [if_neg (by omega), if_neg (by omega), Char.ofNat_toNat]
      simp only [if_neg hplain, List.cons_append, readChars, if_neg hquote, if_true, hread,
        Option.bind_eq_bind, Option.bind_some]

/-- The escape of a surrogate is numeric. -/
theorem escapeUnit_surrogate (n : ℕ) (h : 126 < n) : escapeUnit n = backslash :: 'u' :: hex4 n := by
  unfold escapeUnit
  cases hshort : shortEscape n with
  | some letter =>
    have hbound : ∀ e ∈ shortEscapes, e.1 ≤ 126 := by decide
    have hn := hbound _ (shortEscape_eq_some hshort)
    dsimp only at hn
    omega
  | none =>
    dsimp only
    rw [if_neg (by omega)]

/-- The escapes of a high surrogate and its partner are read as one character. -/
theorem readChars_pair {high low : ℕ} (hhigh : 55296 ≤ high ∧ high ≤ 56319)
    (hlow : 56320 ≤ low ∧ low ≤ 57343) (n : ℕ) (s : List Char) :
    readChars (n + 1) (escapeUnit high ++ (escapeUnit low ++ s)) =
      (readChars n s).bind fun r =>
        some (Char.ofNat (65536 + 1024 * (high - 55296) + (low - 56320)) :: r.1, r.2) := by
  have hpartner : readPartner high (backslash :: 'u' :: (hex4 low ++ s)) =
      some (Char.ofNat (65536 + 1024 * (high - 55296) + (low - 56320)), s) := by
    rw [readPartner, if_pos ⟨rfl, rfl⟩, readHex4_hex4 (by omega)]
    simp only [Option.bind_eq_bind, Option.bind_some]
    rw [if_pos hlow]
  have hread : readEscape ('u' :: (hex4 high ++ backslash :: 'u' :: (hex4 low ++ s))) =
      some (Char.ofNat (65536 + 1024 * (high - 55296) + (low - 56320)), s) := by
    rw [readEscape, if_pos rfl, readUnicode, readHex4_hex4 (by omega)]
    simp only [Option.bind_eq_bind, Option.bind_some]
    rw [if_pos hhigh, hpartner]
  have hquote : backslash ≠ quote := by decide
  rw [escapeUnit_surrogate high (by omega), escapeUnit_surrogate low (by omega)]
  simp only [List.cons_append, readChars, if_neg hquote, if_true, hread, Option.bind_eq_bind,
    Option.bind_some]

/-- The code units of a character: itself, or a high surrogate and its partner. -/
theorem units_cases (c : Char) : c.toNat < 65536 ∧ units c = [c.toNat] ∨
    ∃ high low, (55296 ≤ high ∧ high ≤ 56319) ∧ (56320 ≤ low ∧ low ≤ 57343) ∧
      65536 + 1024 * (high - 55296) + (low - 56320) = c.toNat ∧ units c = [high, low] := by
  have hvalid : c.toNat < 55296 ∨ 57343 < c.toNat ∧ c.toNat < 1114112 := c.valid
  unfold units
  by_cases hc : c.toNat < 65536
  · exact Or.inl ⟨hc, if_pos hc⟩
  · refine Or.inr ⟨_, _, ?_, ?_, ?_, if_neg hc⟩ <;> omega

/-- A character is read back from the escapes of its code units. -/
theorem readChars_units (c : Char) (n : ℕ) (s : List Char) :
    readChars (n + 1) ((units c).flatMap escapeUnit ++ s) =
      (readChars n s).bind fun r => some (c :: r.1, r.2) := by
  obtain ⟨hc, hunits⟩ | ⟨high, low, hhigh, hlow, hvalue, hunits⟩ := units_cases c
  · rw [hunits, List.flatMap_singleton]
    exact readChars_escapeUnit hc n s
  · rw [hunits, List.flatMap_cons, List.flatMap_singleton, List.append_assoc,
      readChars_pair hhigh hlow, hvalue, Char.ofNat_toNat]

/-- The characters of a string are read back up to its closing quote. -/
theorem readChars_flatMap (l : List Char) {n : ℕ} (hn : l.length < n) (s : List Char) :
    readChars n ((l.flatMap units).flatMap escapeUnit ++ quote :: s) = some (l, s) := by
  induction l generalizing n with
  | nil =>
    cases n with
    | zero => omega
    | succ n => simp [readChars]
  | cons c l ih =>
    cases n with
    | zero => omega
    | succ n =>
      rw [List.length_cons] at hn
      rw [List.flatMap_cons, List.flatMap_append, List.append_assoc, readChars_units,
        ih (by omega)]
      rfl

theorem escapeUnit_ne_nil (n : ℕ) : escapeUnit n ≠ [] := by
  unfold escapeUnit
  split
  · exact List.cons_ne_nil _ _
  · split_ifs <;> exact List.cons_ne_nil _ _

theorem length_le_length_escaped (l : List Char) :
    l.length ≤ ((l.flatMap units).flatMap escapeUnit).length := by
  induction l with
  | nil => exact Nat.le_refl 0
  | cons c l ih =>
    have hpos : 0 < ((units c).flatMap escapeUnit).length := by
      obtain ⟨-, hunits⟩ | ⟨high, low, -, -, -, hunits⟩ := units_cases c
      · rw [hunits, List.flatMap_singleton]
        exact List.length_pos_iff.mpr (escapeUnit_ne_nil _)
      · rw [hunits, List.flatMap_cons, List.length_append]
        have hhigh := List.length_pos_iff.mpr (escapeUnit_ne_nil high)
        omega
    rw [List.flatMap_cons, List.flatMap_append, List.length_append, List.length_cons]
    omega

/-- A string is read back from its text. -/
theorem readString_stringText (a : String) (s : List Char) :
    readString ((stringText a).tail ++ s) = some (a, s) := by
  have hlength := length_le_length_escaped a.toList
  rw [stringText, List.tail_cons, List.append_assoc, List.singleton_append, readString,
    readChars_flatMap a.toList (by rw [List.length_append, List.length_cons]; omega)]
  simp

/-! ### Reading values back -/

/-- A text that goes on with a separator, or ends. -/
def Ends (s : List Char) : Prop :=
  ∀ c, s.head? = some c → c = ',' ∨ c = ']' ∨ c = Char.ofNat 125

theorem ends_nil : Ends [] := fun _ h => absurd h (by simp)

theorem ends_cons {c : Char} (s : List Char) (h : c = ',' ∨ c = ']' ∨ c = Char.ofNat 125) :
    Ends (c :: s) := by
  intro d hd
  cases hd
  exact h

theorem Ends.closed {s : List Char} (h : Ends s) : Closed s := by
  intro c hc
  rcases h c hc with rfl | rfl | rfl <;> decide

/-- After an integer, neither a fraction nor an exponent follows. -/
theorem Ends.integer {s : List Char} (h : Ends s) : fractionText s = [] ∧ exponentText s = [] := by
  cases s with
  | nil => exact ⟨rfl, rfl⟩
  | cons c s =>
    rcases h c rfl with rfl | rfl | rfl <;> exact ⟨rfl, rfl⟩

/-- The digits of a positive number do not start with a zero. -/
theorem toDigits_head_ne {n : ℕ} (hn : 0 < n) : (Nat.toDigits 10 n).head? ≠ some '0' := by
  induction n using Nat.strongRecOn with
  | ind n ih =>
    by_cases hsmall : n < 10
    · rw [Nat.toDigits_of_lt_base hsmall]
      have hall : ∀ d : Fin 10, 0 < d.val → d.val.digitChar ≠ '0' := by decide
      have hne := hall ⟨n, hsmall⟩ hn
      rw [List.head?_cons]
      exact fun heq => hne (Option.some.inj heq)
    · have hrest := ih (n / 10) (by omega) (by omega)
      rw [Nat.toDigits_of_base_le (by decide) (by omega),
        List.head?_append_of_ne_nil _ Nat.toDigits_ne_nil]
      exact hrest

theorem integerDigits_toDigits (n : ℕ) {s : List Char} (hs : Closed s) :
    integerDigits (Nat.toDigits 10 n ++ s) = Nat.toDigits 10 n := by
  rcases Nat.eq_zero_or_pos n with rfl | hn
  · rw [Nat.toDigits_zero]
    rfl
  · have htake : (Nat.toDigits 10 n ++ s).takeWhile Char.isDigit = Nat.toDigits 10 n := by
      rw [List.takeWhile_append_of_pos fun c hc =>
        Nat.isDigit_of_mem_toDigits (by decide) (by decide) hc]
      cases s with
      | nil => simp
      | cons c s => rw [List.takeWhile_cons_of_neg (by simp [hs c rfl]), List.append_nil]
    have hhead := toDigits_head_ne hn
    cases hdigits : Nat.toDigits 10 n with
    | nil => exact absurd hdigits Nat.toDigits_ne_nil
    | cons c rest =>
      rw [hdigits, List.head?_cons] at hhead
      rw [hdigits] at htake
      unfold integerDigits
      rw [List.cons_append] at htake ⊢
      split
      · next heq =>
        rw [List.cons.injEq] at heq
        exact absurd (congrArg some heq.1) hhead
      · exact htake

theorem readMagnitude_toDigits (h : Hooks V) (negative : Bool) (n : ℕ) {s : List Char}
    (hs : Ends s) : readMagnitude h negative (Nat.toDigits 10 n ++ s) =
      some (h.int (if negative then -(n : ℤ) else n), s) := by
  unfold readMagnitude
  rw [integerDigits_toDigits n hs.closed]
  dsimp only
  rw [if_neg Nat.toDigits_ne_nil, List.drop_left, hs.integer.1, List.length_nil, List.drop_zero,
    hs.integer.2, if_pos ⟨rfl, rfl⟩, Nat.ofDigitChars_ten_toDigits]

theorem readPlain_intText (h : Hooks V) (n : ℤ) {s : List Char} (hs : Ends s) :
    readPlain h (intText n ++ s) = some (h.int n, s) := by
  have hdigit : ∀ c ∈ Nat.toDigits 10 n.natAbs, c.isDigit = true := fun c hc =>
    Nat.isDigit_of_mem_toDigits (by decide) (by decide) hc
  have hmagnitude : ∀ negative, readMagnitude h negative (Nat.toDigits 10 n.natAbs ++ s) =
      some (h.int (if negative then -(n.natAbs : ℤ) else n.natAbs), s) := fun negative =>
    readMagnitude_toDigits h negative n.natAbs hs
  unfold intText
  cases hdigits : Nat.toDigits 10 n.natAbs with
  | nil => exact absurd hdigits Nat.toDigits_ne_nil
  | cons c rest =>
    rw [hdigits] at hdigit hmagnitude
    have hc : c.isDigit = true := hdigit c List.mem_cons_self
    split_ifs with hneg
    · have hword : readWord "-Infinity" (h.float "-Infinity") ('-' :: c :: (rest ++ s)) = none := by
        unfold readWord
        rw [if_neg]
        intro heq
        have htail := congrArg (fun l => l.tail.head?) heq
        have hI : some c = some 'I' := htail
        rw [Option.some.inj hI] at hc
        cases hc
      have hread := hmagnitude true
      rw [if_pos rfl] at hread
      rw [List.cons_append, List.cons_append, readPlain, List.head?_cons]
      rw [hword, Option.none_or, List.tail_cons, ← List.cons_append, hread,
        show -(n.natAbs : ℤ) = n by omega]
      rfl
    · have hread := hmagnitude false
      have hother : ∀ d : Char, d.isDigit = false → some c ≠ some d := by
        intro d hd heq
        rw [Option.some.inj heq, hd] at hc
        cases hc
      rw [List.cons_append] at hread ⊢
      unfold readPlain
      rw [List.head?_cons]
      split
      case h_1 heq => exact absurd heq (hother _ rfl)
      case h_2 heq => exact absurd heq (hother _ rfl)
      case h_3 heq => exact absurd heq (hother _ rfl)
      case h_4 heq => exact absurd heq (hother _ rfl)
      case h_5 heq => exact absurd heq (hother _ rfl)
      case h_6 heq => exact absurd heq (hother _ rfl)
      case h_7 =>
        rw [hread, if_neg (by decide), show (n.natAbs : ℤ) = n by omega]

/-- A value that a reader reads back, whatever ends its text. -/
def ReadBy (h : Hooks V) (read : List Char → Option (V × List Char)) (a : Json) : Prop :=
  ∀ s, Ends s → read (text a ++ s) = some (h.build a, s)

theorem isBlank_of_kindOf {c : Char} (h : kindOf c < 6) : isBlank c = false := by
  by_contra hblank
  rw [Bool.not_eq_false, isBlank, decide_eq_true_eq] at hblank
  simp only [List.mem_cons, List.not_mem_nil, or_false] at hblank
  have hc : c = Char.ofNat c.toNat := (Char.ofNat_toNat c).symm
  rcases hblank with hn | hn | hn | hn <;> rw [hc, hn] at h <;> revert h <;> decide

theorem skipBlanks_cons {c : Char} (h : isBlank c = false) (s : List Char) :
    skipBlanks (c :: s) = c :: s :=
  List.dropWhile_cons_of_neg (by simp [h])

theorem kind_lt (a : Json) : kind a < 6 := by
  cases a <;> simp [kind]

/-- A text does not start with white space. -/
theorem skipBlanks_text (a : Json) (s : List Char) : skipBlanks (text a ++ s) = text a ++ s := by
  obtain ⟨c, rest, htext, hkind⟩ := text_head a
  rw [htext, List.cons_append]
  exact skipBlanks_cons (isBlank_of_kindOf (hkind ▸ kind_lt a)) _

theorem head_text_ne (a : Json) {c : Char} (hc : kindOf c = 6) (s : List Char) :
    (text a ++ s).head? ≠ some c := by
  intro h
  obtain ⟨t, ht⟩ : ∃ t, text a ++ s = c :: t := by
    cases htext : text a ++ s with
    | nil => rw [htext] at h; cases h
    | cons d t =>
      rw [htext, List.head?_cons, Option.some.injEq] at h
      exact ⟨t, by rw [h]⟩
  exact text_ne_end a hc s t ht

theorem length_lt_elements (sep : List Char) (l : List Json) :
    l.length < (elements sep l).length := by
  induction l generalizing sep with
  | nil => exact Nat.one_pos
  | cons a l ih =>
    obtain ⟨c, rest, htext, -⟩ := text_head a
    have hl := ih [',']
    rw [elements, htext]
    simp only [List.length_append, List.length_cons]
    omega

theorem length_text_le_elements (sep : List Char) {l : List Json} {a : Json} (ha : a ∈ l) :
    (text a).length ≤ (elements sep l).length := by
  induction l generalizing sep with
  | nil => exact absurd ha List.not_mem_nil
  | cons b l ih =>
    rw [elements, List.length_append, List.length_append]
    rcases List.mem_cons.mp ha with rfl | ha
    · omega
    · have hl := ih [','] ha
      omega

theorem length_lt_members (sep : List Char) (l : List (String × Json)) :
    l.length < (members sep l).length := by
  induction l generalizing sep with
  | nil => exact Nat.one_pos
  | cons e l ih =>
    have hl := ih [',']
    rw [members]
    simp only [List.length_append, List.length_cons]
    omega

theorem length_text_le_members (sep : List Char) {l : List (String × Json)} {e : String × Json}
    (he : e ∈ l) : (text e.2).length ≤ (members sep l).length := by
  induction l generalizing sep with
  | nil => exact absurd he List.not_mem_nil
  | cons f l ih =>
    rw [members]
    simp only [List.length_append, List.length_cons]
    rcases List.mem_cons.mp he with rfl | he
    · omega
    · have hl := ih [','] he
      omega

theorem ends_elements (l : List Json) (s : List Char) : Ends (elements [','] l ++ s) := by
  cases l with
  | nil => exact ends_cons _ (Or.inr (Or.inl rfl))
  | cons a l => exact ends_cons _ (Or.inl rfl)

theorem ends_members (l : List (String × Json)) (s : List Char) :
    Ends (members [','] l ++ s) := by
  cases l with
  | nil => exact ends_cons _ (Or.inr (Or.inr rfl))
  | cons e l => exact ends_cons _ (Or.inl rfl)

/-- The elements of a list are read back one after the other. -/
theorem readElements_elements {h : Hooks V} {read : List Char → Option (V × List Char)}
    {a : Json} {l : List Json} (ha : ReadBy h read a) (hl : ∀ b ∈ l, ReadBy h read b) {m : ℕ}
    (hm : l.length < m) (s : List Char) :
    readElements read m (text a ++ (elements [','] l ++ s)) =
      some (h.build a :: h.buildList l, s) := by
  induction l generalizing a m with
  | nil =>
    cases m with
    | zero => omega
    | succ m =>
      have hread := ha _ (ends_elements [] s)
      simp only [readElements, hread, Option.bind_eq_bind, Option.bind_some]
      rfl
  | cons b l ih =>
    cases m with
    | zero => omega
    | succ m =>
      rw [List.length_cons] at hm
      rw [List.forall_mem_cons] at hl
      have hread := ha _ (ends_elements (b :: l) s)
      have hrest := ih hl.1 hl.2 (m := m) (by omega)
      have hskip : skipBlanks (elements [','] (b :: l) ++ s) =
          ',' :: (text b ++ (elements [','] l ++ s)) := by
        rw [elements, List.singleton_append, List.cons_append, List.append_assoc]
        exact skipBlanks_cons rfl _
      simp only [readElements, hread, Option.bind_eq_bind, Option.bind_some, hskip,
        skipBlanks_text, hrest, Hooks.buildList]

theorem head_stringText (a : String) (s : List Char) :
    (stringText a ++ s).head? = some quote ∧ (stringText a ++ s).tail = (stringText a).tail ++ s :=
  ⟨rfl, rfl⟩

/-- A member of an object is read back. -/
theorem readMember_member {h : Hooks V} {read : List Char → Option (V × List Char)}
    {e : String × Json} (he : ReadBy h read e.2) {s : List Char} (hs : Ends s) :
    readMember read (stringText e.1 ++ ':' :: (text e.2 ++ s)) = some ((e.1, h.build e.2), s) := by
  have hcolon : skipBlanks (':' :: (text e.2 ++ s)) = ':' :: (text e.2 ++ s) :=
    skipBlanks_cons rfl _
  unfold readMember
  rw [(head_stringText _ _).1, (head_stringText _ _).2, readString_stringText]
  simp only [ne_eq, not_true_eq_false, if_false, Option.bind_eq_bind, Option.bind_some, hcolon,
    List.head?_cons, List.tail_cons, skipBlanks_text, he s hs]

/-- The members of an object are read back one after the other. -/
theorem readMembers_members {h : Hooks V} {read : List Char → Option (V × List Char)}
    {e : String × Json} {l : List (String × Json)} (he : ReadBy h read e.2)
    (hl : ∀ f ∈ l, ReadBy h read (Prod.snd f)) {m : ℕ} (hm : l.length < m) (s : List Char) :
    readMembers read m (stringText e.1 ++ ':' :: (text e.2 ++ (members [','] l ++ s))) =
      some ((e.1, h.build e.2) :: h.buildMembers l, s) := by
  have hcomma : ',' ≠ Char.ofNat 125 := by decide
  induction l generalizing e m with
  | nil =>
    cases m with
    | zero => omega
    | succ m =>
      have hskip : skipBlanks (members [','] [] ++ s) = Char.ofNat 125 :: s :=
        skipBlanks_cons (by decide) _
      simp only [readMembers, readMember_member he (ends_members [] s), Option.bind_eq_bind,
        Option.bind_some, hskip, List.head?_cons, if_true, List.tail_cons, Hooks.buildMembers]
  | cons f l ih =>
    cases m with
    | zero => omega
    | succ m =>
      rw [List.length_cons] at hm
      rw [List.forall_mem_cons] at hl
      have hrest := ih hl.1 hl.2 (m := m) (by omega)
      have hkey : skipBlanks (stringText f.1 ++ ':' :: (text f.2 ++ (members [','] l ++ s))) =
          stringText f.1 ++ ':' :: (text f.2 ++ (members [','] l ++ s)) :=
        skipBlanks_cons (by decide) _
      have hskip : skipBlanks (members [','] (f :: l) ++ s) =
          ',' :: (stringText f.1 ++ ':' :: (text f.2 ++ (members [','] l ++ s))) := by
        rw [members, List.singleton_append, List.cons_append, List.append_assoc,
          List.cons_append, List.append_assoc]
        exact skipBlanks_cons rfl _
      simp only [readMembers, readMember_member he (ends_members (f :: l) s),
        Option.bind_eq_bind, Option.bind_some, hskip, List.head?_cons, Option.some.injEq,
        if_neg hcomma, if_true, List.tail_cons, hkey, hrest, Hooks.buildMembers]

theorem readValue_text (h : Hooks V) (a : Json) {n : ℕ} (hn : (text a).length ≤ n) :
    ReadBy h (readValue h n) a := by
  have hquote : ∀ c, kindOf c ≠ 3 → some c ≠ some quote := by
    rintro c hc heq
    rw [Option.some.inj heq] at hc
    exact hc (by decide)
  induction a using induct generalizing n with
  | null =>
    intro s hs
    cases n with
    | zero => cases hn
    | succ n => rfl
  | bool b =>
    intro s hs
    cases n with
    | zero => cases b <;> cases hn
    | succ n => cases b <;> rfl
  | int i =>
    intro s hs
    obtain ⟨c, rest, htext, hkind⟩ := intText_head i
    have hother : ∀ d, kindOf d ≠ 2 → some c ≠ some d := by
      intro d hd heq
      rw [Option.some.inj heq] at hkind
      exact hd hkind
    cases n with
    | zero => rw [text, htext] at hn; cases hn
    | succ n =>
      have hhead : (intText i ++ s).head? = some c := by rw [htext]; rfl
      rw [text, readValue, hhead, if_neg (hother _ (by decide)), if_neg (hother _ (by decide)),
        if_neg (hother _ (by decide)), readPlain_intText h i hs]
      rfl
  | str a =>
    intro s hs
    cases n with
    | zero => cases hn
    | succ n =>
      rw [text, readValue, (head_stringText a s).1, if_pos rfl, (head_stringText a s).2,
        readString_stringText]
      rfl
  | list l ih =>
    intro s hs
    cases n with
    | zero => cases hn
    | succ n =>
      rw [text, List.length_cons] at hn
      have hl : ∀ a ∈ l, ReadBy h (readValue h n) a := fun a ha =>
        ih a ha ((length_text_le_elements [] ha).trans (by omega))
      rw [text, List.cons_append, readValue, List.head?_cons, if_neg (hquote _ (by decide)),
        if_pos rfl, List.tail_cons]
      dsimp only
      cases l with
      | nil => rfl
      | cons a l =>
        rw [List.forall_mem_cons] at hl
        have hfuel : l.length < (text a ++ (elements [','] l ++ s)).length := by
          have hlen := length_lt_elements [','] l
          rw [List.length_append, List.length_append]
          omega
        rw [elements, List.nil_append, List.append_assoc, skipBlanks_text,
          if_neg (head_text_ne a (by decide) _), readElements_elements hl.1 hl.2 hfuel]
        rfl
  | dict l ih =>
    intro s hs
    cases n with
    | zero => cases hn
    | succ n =>
      rw [text, List.length_cons] at hn
      have hl : ∀ e ∈ l, ReadBy h (readValue h n) (Prod.snd e) := fun e he =>
        ih e he ((length_text_le_members [] he).trans (by omega))
      have hlist : some (Char.ofNat 123) ≠ some '[' := by decide
      rw [text, List.cons_append, readValue, List.head?_cons, if_neg (hquote _ (by decide)),
        if_neg hlist, if_pos rfl, List.tail_cons]
      dsimp only
      cases l with
      | nil => rfl
      | cons e l =>
        rw [List.forall_mem_cons] at hl
        have hfuel : l.length <
            (stringText e.1 ++ ':' :: (text e.2 ++ (members [','] l ++ s))).length := by
          have hlen := length_lt_members [','] l
          simp only [List.length_append, List.length_cons]
          omega
        have hskip : skipBlanks (members [] (e :: l) ++ s) =
            stringText e.1 ++ ':' :: (text e.2 ++ (members [','] l ++ s)) := by
          rw [members, List.nil_append, List.append_assoc, List.cons_append, List.append_assoc]
          exact skipBlanks_cons (by decide) _
        have hend : some quote ≠ some (Char.ofNat 125) := by decide
        rw [hskip, (head_stringText _ _).1, if_neg hend, readMembers_members hl.1 hl.2 hfuel]
        rfl

/-- A reader builds from the text of a value what its hooks build from the value. -/
theorem loads_text (h : Hooks V) (a : Json) : loads h (text a) = some (h.build a) := by
  have hread := readValue_text h a (n := (text a).length + 1) (by omega) [] ends_nil
  have hskip := skipBlanks_text a []
  rw [List.append_nil] at hread hskip
  unfold loads
  rw [hskip, hread]
  rfl

end Json

end NpuArc
