import NpuArc.Library.SelfDelimiting
import Mathlib.Data.String.Basic
import Mathlib.Data.Nat.Digits.Defs

/-!
# JSON texts

The compact ASCII text of a JSON value. Strings are written in UTF-16 code units, of which
the printable ones stand for themselves and the others are escaped. Different values have
different texts.
-/

namespace NpuArc

/-- A JSON value without fractions; the members of an object are in their written order. -/
inductive Json
  | null
  | bool (b : Bool)
  | int (n : ℤ)
  | str (s : String)
  | list (l : List Json)
  | dict (l : List (String × Json))

namespace Json

/-! ### Strings -/

/-- The double quote. -/
def quote : Char := Char.ofNat 34

/-- The backslash. -/
def backslash : Char := Char.ofNat 92

/-- The UTF-16 code units of a character. -/
def units (c : Char) : List ℕ :=
  if c.toNat < 65536 then [c.toNat]
  else [55296 + (c.toNat - 65536) / 1024, 56320 + (c.toNat - 65536) % 1024]

/-- The code units with a short escape: quote, backslash, newline, carriage return, tab,
form feed, and backspace. -/
def shortEscapes : List (ℕ × Char) :=
  [(34, quote), (92, backslash), (10, 'n'), (13, 'r'), (9, 't'), (12, 'f'), (8, 'b')]

/-- The letter of the short escape of a code unit. -/
def shortEscape (n : ℕ) : Option Char := (shortEscapes.find? fun e => e.1 == n).map Prod.snd

/-- Four hexadecimal digits. -/
def hex4 (n : ℕ) : List Char :=
  [(n / 4096 % 16).digitChar, (n / 256 % 16).digitChar, (n / 16 % 16).digitChar,
    (n % 16).digitChar]

/-- The escape of a code unit. -/
def escapeUnit (n : ℕ) : List Char :=
  match shortEscape n with
  | some letter => [backslash, letter]
  | none => if 32 ≤ n ∧ n ≤ 126 then [Char.ofNat n] else backslash :: 'u' :: hex4 n

/-- The text of a string. -/
def stringText (s : String) : List Char :=
  quote :: ((s.toList.flatMap units).flatMap escapeUnit ++ [quote])

theorem units_selfDelimiting : SelfDelimiting (fun _ => True) units := by
  intro c d _ _ s t h
  have hc : c.toNat < 55296 ∨ 57343 < c.toNat ∧ c.toNat < 1114112 := c.valid
  have hd : d.toNat < 55296 ∨ 57343 < d.toNat ∧ d.toNat < 1114112 := d.valid
  unfold units at h
  split_ifs at h with hcs hds hds
  · simp only [List.cons_append, List.nil_append, List.cons.injEq] at h
    exact ⟨Char.toNat_inj.mp h.1, h.2⟩
  · -- The first unit of a pair is no character of its own.
    simp only [List.cons_append, List.nil_append, List.cons.injEq] at h
    omega
  · simp only [List.cons_append, List.nil_append, List.cons.injEq] at h
    omega
  · simp only [List.cons_append, List.nil_append, List.cons.injEq] at h
    exact ⟨Char.toNat_inj.mp (by omega), h.2.2⟩

theorem units_lt {c : Char} {n : ℕ} (h : n ∈ units c) : n < 65536 := by
  have hc : c.toNat < 55296 ∨ 57343 < c.toNat ∧ c.toNat < 1114112 := c.valid
  unfold units at h
  split_ifs at h with hcs
  · rw [List.mem_singleton.mp h]
    exact hcs
  · simp only [List.mem_cons, List.not_mem_nil, or_false] at h
    omega

private theorem digitChar_injective {m n : ℕ} (hm : m < 16) (hn : n < 16)
    (h : m.digitChar = n.digitChar) : m = n := by
  have hall : ∀ a b : Fin 16, a.val.digitChar = b.val.digitChar → a = b := by decide
  exact congrArg Fin.val (hall ⟨m, hm⟩ ⟨n, hn⟩ h)

theorem hex4_selfDelimiting : SelfDelimiting (· < 65536) hex4 := by
  intro m n hm hn s t h
  unfold hex4 at h
  simp only [List.cons_append, List.nil_append, List.cons.injEq] at h
  obtain ⟨h₃, h₂, h₁, h₀, hst⟩ := h
  have h₃ := digitChar_injective (Nat.mod_lt _ (by decide)) (Nat.mod_lt _ (by decide)) h₃
  have h₂ := digitChar_injective (Nat.mod_lt _ (by decide)) (Nat.mod_lt _ (by decide)) h₂
  have h₁ := digitChar_injective (Nat.mod_lt _ (by decide)) (Nat.mod_lt _ (by decide)) h₁
  have h₀ := digitChar_injective (Nat.mod_lt _ (by decide)) (Nat.mod_lt _ (by decide)) h₀
  exact ⟨by omega, hst⟩

theorem shortEscape_eq_some {n : ℕ} {letter : Char} (h : shortEscape n = some letter) :
    (n, letter) ∈ shortEscapes := by
  unfold shortEscape at h
  obtain ⟨e, he, rfl⟩ := Option.map_eq_some_iff.mp h
  have hn := List.find?_some he
  rw [beq_iff_eq] at hn
  rw [← hn]
  exact List.mem_of_find?_eq_some he

/-- Short escapes have different letters, and none is the letter of a numeric escape. -/
theorem shortEscapes_letters : (∀ e ∈ shortEscapes, e.2 ≠ 'u') ∧
    ∀ e ∈ shortEscapes, ∀ f ∈ shortEscapes, e.2 = f.2 → e.1 = f.1 := by
  decide

private theorem ofNat_toNat {n : ℕ} (h : n ≤ 126) : (Char.ofNat n).toNat = n := by
  have hall : ∀ n : Fin 127, (Char.ofNat n).toNat = n := by decide
  exact hall ⟨n, by omega⟩

/-- A printable unit that stands for itself is neither a quote nor a backslash. -/
theorem plain_ne {n : ℕ} (h : n ≤ 126) (hshort : shortEscape n = none) :
    Char.ofNat n ≠ quote ∧ Char.ofNat n ≠ backslash := by
  constructor
  · intro heq
    have hn : n = 34 := by rw [← ofNat_toNat h, heq]; rfl
    rw [hn] at hshort
    revert hshort
    decide
  · intro heq
    have hn : n = 92 := by rw [← ofNat_toNat h, heq]; rfl
    rw [hn] at hshort
    revert hshort
    decide

theorem escapeUnit_selfDelimiting : SelfDelimiting (· < 65536) escapeUnit := by
  intro m n hm hn s t h
  unfold escapeUnit at h
  cases hsm : shortEscape m with
  | some letter =>
    have hmem := shortEscape_eq_some hsm
    cases hsn : shortEscape n with
    | some letter' =>
      have hmem' := shortEscape_eq_some hsn
      simp only [hsm, hsn, List.cons_append, List.nil_append, List.cons.injEq, true_and] at h
      exact ⟨shortEscapes_letters.2 _ hmem _ hmem' h.1, h.2⟩
    | none =>
      simp only [hsm, hsn] at h
      split_ifs at h with hplain
      · simp only [List.cons_append, List.nil_append, List.cons.injEq] at h
        exact absurd h.1.symm (plain_ne hplain.2 hsn).2
      · simp only [List.cons_append, List.nil_append, List.cons.injEq, true_and] at h
        exact absurd h.1 (shortEscapes_letters.1 _ hmem)
  | none =>
    cases hsn : shortEscape n with
    | some letter' =>
      have hmem' := shortEscape_eq_some hsn
      simp only [hsm, hsn] at h
      split_ifs at h with hplain
      · simp only [List.cons_append, List.nil_append, List.cons.injEq] at h
        exact absurd h.1 (plain_ne hplain.2 hsm).2
      · simp only [List.cons_append, List.nil_append, List.cons.injEq, true_and] at h
        exact absurd h.1.symm (shortEscapes_letters.1 _ hmem')
    | none =>
      simp only [hsm, hsn] at h
      split_ifs at h with hplain hplain' hplain'
      · simp only [List.cons_append, List.nil_append, List.cons.injEq] at h
        refine ⟨?_, h.2⟩
        rw [← ofNat_toNat hplain.2, h.1, ofNat_toNat hplain'.2]
      · simp only [List.cons_append, List.nil_append, List.cons.injEq] at h
        exact absurd h.1 (plain_ne hplain.2 hsm).2
      · simp only [List.cons_append, List.nil_append, List.cons.injEq] at h
        exact absurd h.1.symm (plain_ne hplain'.2 hsn).2
      · simp only [List.cons_append, List.cons.injEq, true_and] at h
        exact hex4_selfDelimiting m n hm hn s t h

theorem escapeUnit_ne_quote (n : ℕ) (s t : List Char) : escapeUnit n ++ s ≠ quote :: t := by
  unfold escapeUnit
  cases hshort : shortEscape n with
  | some letter =>
    intro h
    simp only [List.cons_append, List.cons.injEq] at h
    exact absurd h.1 (by decide)
  | none =>
    dsimp only
    split_ifs with hplain
    · intro h
      simp only [List.cons_append, List.cons.injEq] at h
      exact (plain_ne hplain.2 hshort).1 h.1
    · intro h
      simp only [List.cons_append, List.cons.injEq] at h
      exact absurd h.1 (by decide)

theorem stringText_selfDelimiting : SelfDelimiting (fun _ => True) stringText := by
  intro a b _ _ s t h
  unfold stringText at h
  rw [List.cons_append, List.cons_append, List.cons.injEq] at h
  have hlt : ∀ s : String, ∀ n ∈ s.toList.flatMap units, n < 65536 := by
    intro s n hn
    obtain ⟨c, -, hn⟩ := List.mem_flatMap.mp hn
    exact units_lt hn
  have hterminated := escapeUnit_selfDelimiting.flatMap_terminated
    fun n s t _ => escapeUnit_ne_quote n s t
  obtain ⟨hunits, hst⟩ := hterminated _ _ (hlt a) (hlt b) s t h.2
  have hne : ∀ c, units c ≠ [] := by
    intro c
    unfold units
    split_ifs <;> simp
  have hlist := units_selfDelimiting.flatMap_injective hne (fun _ _ => trivial)
    (fun _ _ => trivial) hunits
  exact ⟨String.toList_inj.mp hlist, hst⟩

/-! ### Values -/

/-- The text of an integer. -/
def intText (n : ℤ) : List Char :=
  if n < 0 then '-' :: Nat.toDigits 10 n.natAbs else Nat.toDigits 10 n.natAbs

mutual

/-- The text of a value. -/
def text : Json → List Char
  | .null => ['n', 'u', 'l', 'l']
  | .bool true => ['t', 'r', 'u', 'e']
  | .bool false => ['f', 'a', 'l', 's', 'e']
  | .int n => intText n
  | .str s => stringText s
  | .list l => '[' :: elements [] l
  | .dict l => Char.ofNat 123 :: members [] l

/-- The text of the elements of a list after a separator, up to the end of the list. -/
def elements (separator : List Char) : List Json → List Char
  | [] => [']']
  | a :: l => separator ++ (text a ++ elements [','] l)

/-- The text of the members of an object after a separator, up to the end of the object. -/
def members (separator : List Char) : List (String × Json) → List Char
  | [] => [Char.ofNat 125]
  | e :: l => separator ++ (stringText e.1 ++ ':' :: (text e.2 ++ members [','] l))

end

/-- Induction over values. -/
theorem induct {P : Json → Prop} (null : P .null) (bool : ∀ b, P (.bool b))
    (int : ∀ n, P (.int n)) (str : ∀ s, P (.str s)) (list : ∀ l, (∀ a ∈ l, P a) → P (.list l))
    (dict : ∀ l, (∀ e ∈ l, P (Prod.snd e)) → P (.dict l)) (a : Json) : P a :=
  @Json.rec P (fun l => ∀ a ∈ l, P a) (fun l => ∀ e ∈ l, P (Prod.snd e)) (fun e => P e.2)
    null bool int str list dict (fun _ h => absurd h List.not_mem_nil)
    (fun _ _ ha hl => List.forall_mem_cons.mpr ⟨ha, hl⟩) (fun _ h => absurd h List.not_mem_nil)
    (fun _ _ he hl => List.forall_mem_cons.mpr ⟨he, hl⟩) (fun _ _ h => h) a

/-! ### The text determines the value -/

/-- A text that does not go on with a digit. -/
def Closed (s : List Char) : Prop := ∀ c, s.head? = some c → c.isDigit = false

theorem closed_cons {c : Char} (s : List Char) (h : c.isDigit = false) : Closed (c :: s) := by
  intro d hd
  cases hd
  exact h

/-- The kind of value that a character starts. -/
def kindOf (c : Char) : ℕ :=
  if c = 'n' then 0 else if c = 't' ∨ c = 'f' then 1
  else if c = '-' ∨ c.isDigit then 2 else if c = quote then 3 else if c = '[' then 4
  else if c = Char.ofNat 123 then 5 else 6

/-- The kind of a value. -/
def kind : Json → ℕ
  | .null => 0
  | .bool _ => 1
  | .int _ => 2
  | .str _ => 3
  | .list _ => 4
  | .dict _ => 5

theorem kindOf_digit {c : Char} (h : c.isDigit = true) : kindOf c = 2 := by
  have hne : ∀ d : Char, d.isDigit = false → c ≠ d := by
    rintro d hd rfl
    rw [h] at hd
    cases hd
  unfold kindOf
  rw [if_neg (hne 'n' rfl), if_neg (by simp [hne 't' rfl, hne 'f' rfl]), if_pos (Or.inr h)]

theorem intText_head (n : ℤ) : ∃ c rest, intText n = c :: rest ∧ kindOf c = 2 := by
  unfold intText
  split_ifs
  · exact ⟨_, _, rfl, rfl⟩
  · cases hdigits : Nat.toDigits 10 n.natAbs with
    | nil => exact absurd hdigits Nat.toDigits_ne_nil
    | cons c rest =>
      refine ⟨c, rest, rfl, kindOf_digit ?_⟩
      apply Nat.isDigit_of_mem_toDigits (b := 10) (n := n.natAbs) (by decide) (by decide)
      rw [hdigits]
      exact List.mem_cons_self

/-- The first character of a text tells the kind of its value. -/
theorem text_head (a : Json) : ∃ c rest, text a = c :: rest ∧ kindOf c = kind a := by
  cases a with
  | null => exact ⟨_, _, rfl, rfl⟩
  | bool b => cases b <;> exact ⟨_, _, rfl, rfl⟩
  | int n =>
    obtain ⟨c, rest, htext, hkind⟩ := intText_head n
    exact ⟨c, rest, by rw [text, htext], hkind⟩
  | str s => exact ⟨_, _, by rw [text, stringText], rfl⟩
  | list l => exact ⟨_, _, by rw [text], rfl⟩
  | dict l => exact ⟨_, _, by rw [text], rfl⟩

theorem kind_eq {a b : Json} {s t : List Char} (h : text a ++ s = text b ++ t) :
    kind a = kind b := by
  obtain ⟨c, rest, ha, hc⟩ := text_head a
  obtain ⟨d, rest', hb, hd⟩ := text_head b
  rw [ha, hb, List.cons_append, List.cons_append, List.cons.injEq] at h
  rw [← hc, ← hd, h.1]

/-- No text starts like the end of a list or of an object. -/
theorem text_ne_end (a : Json) {c : Char} (hc : kindOf c = 6) (s t : List Char) :
    text a ++ s ≠ c :: t := by
  obtain ⟨d, rest, ha, hd⟩ := text_head a
  intro h
  rw [ha, List.cons_append, List.cons.injEq] at h
  rw [h.1, hc] at hd
  cases a <;> cases hd

theorem digits_closed {l l' s t : List Char} (hl : ∀ c ∈ l, c.isDigit = true)
    (hl' : ∀ c ∈ l', c.isDigit = true) (hs : Closed s) (ht : Closed t)
    (h : l ++ s = l' ++ t) : l = l' ∧ s = t := by
  have htake : ∀ l s : List Char, (∀ c ∈ l, c.isDigit = true) → Closed s →
      (l ++ s).takeWhile Char.isDigit = l := by
    intro l s hl hs
    rw [List.takeWhile_append_of_pos hl]
    cases s with
    | nil => simp
    | cons c s => rw [List.takeWhile_cons_of_neg (by simp [hs c rfl]), List.append_nil]
  have heq : l = l' := by rw [← htake l s hl hs, h, htake l' t hl' ht]
  subst heq
  exact ⟨rfl, List.append_cancel_left h⟩

theorem intText_closed {m n : ℤ} {s t : List Char} (hs : Closed s) (ht : Closed t)
    (h : intText m ++ s = intText n ++ t) : m = n ∧ s = t := by
  have hdigit : ∀ n : ℕ, ∀ c ∈ Nat.toDigits 10 n, c.isDigit = true := fun n c hc =>
    Nat.isDigit_of_mem_toDigits (by decide) (by decide) hc
  have hinj : ∀ m n : ℕ, Nat.toDigits 10 m = Nat.toDigits 10 n → m = n := by
    intro m n h
    rw [← Nat.ofDigitChars_ten_toDigits (n := m), h, Nat.ofDigitChars_ten_toDigits]
  have hminus : ∀ (n : ℕ) (s t : List Char), Nat.toDigits 10 n ++ s ≠ '-' :: t := by
    intro n s t h
    cases hdigits : Nat.toDigits 10 n with
    | nil => exact Nat.toDigits_ne_nil hdigits
    | cons c rest =>
      have hc := hdigit n c (by rw [hdigits]; exact List.mem_cons_self)
      rw [hdigits, List.cons_append, List.cons.injEq] at h
      rw [h.1] at hc
      cases hc
  unfold intText at h
  split_ifs at h with hm hn hn
  · rw [List.cons_append, List.cons_append, List.cons.injEq] at h
    obtain ⟨hdigits, hst⟩ := digits_closed (hdigit _) (hdigit _) hs ht h.2
    have habs := hinj _ _ hdigits
    exact ⟨by omega, hst⟩
  · exact absurd h.symm (hminus _ _ _)
  · exact absurd h (hminus _ _ _)
  · obtain ⟨hdigits, hst⟩ := digits_closed (hdigit _) (hdigit _) hs ht h
    have habs := hinj _ _ hdigits
    exact ⟨by omega, hst⟩

/-- What is read back of a text, whatever follows it. -/
def ReadsBack (a : Json) : Prop :=
  ∀ b s t, Closed s → Closed t → text a ++ s = text b ++ t → a = b ∧ s = t

private theorem closed_elements {sep : List Char} (hsep : sep = [','])
    (l : List Json) (s : List Char) : Closed (elements sep l ++ s) := by
  subst hsep
  cases l with
  | nil => exact closed_cons _ rfl
  | cons a l => exact closed_cons _ rfl

private theorem closed_members {sep : List Char} (hsep : sep = [','])
    (l : List (String × Json)) (s : List Char) : Closed (members sep l ++ s) := by
  subst hsep
  cases l with
  | nil => exact closed_cons _ (by decide)
  | cons a l => exact closed_cons _ rfl

/-- The elements of a list are read back one after the other. -/
private theorem elements_readBack {l : List Json} (hl : ∀ a ∈ l, ReadsBack a) {sep : List Char}
    (hsep : sep = [] ∨ sep = [',']) {l' : List Json} {s t : List Char}
    (h : elements sep l ++ s = elements sep l' ++ t) : l = l' ∧ s = t := by
  have hend : ∀ (b : Json) (l : List Json) (s t : List Char),
      sep ++ (text b ++ elements [','] l) ++ s ≠ ']' :: t := by
    intro b l s t heq
    rcases hsep with rfl | rfl
    · rw [List.nil_append, List.append_assoc] at heq
      exact text_ne_end b rfl _ _ heq
    · simp at heq
  induction l generalizing sep l' with
  | nil =>
    cases l' with
    | nil => exact ⟨rfl, by simpa [elements] using h⟩
    | cons b l' => exact absurd h.symm (hend b l' t s)
  | cons a l ih =>
    rw [List.forall_mem_cons] at hl
    cases l' with
    | nil => exact absurd h (hend a l s t)
    | cons b l' =>
      simp only [elements, List.append_assoc] at h
      have h := List.append_cancel_left h
      obtain ⟨rfl, hrest⟩ := hl.1 b _ _ (closed_elements rfl l s) (closed_elements rfl l' t) h
      obtain ⟨rfl, hst⟩ := ih hl.2 (Or.inr rfl) hrest (by simp)
      exact ⟨rfl, hst⟩

/-- The members of an object are read back one after the other. -/
private theorem members_readBack {l : List (String × Json)} (hl : ∀ e ∈ l, ReadsBack (Prod.snd e))
    {sep : List Char} (hsep : sep = [] ∨ sep = [',']) {l' : List (String × Json)}
    {s t : List Char} (h : members sep l ++ s = members sep l' ++ t) : l = l' ∧ s = t := by
  have hend : ∀ (e : String × Json) (l : List (String × Json)) (s t : List Char),
      sep ++ (stringText e.1 ++ ':' :: (text e.2 ++ members [','] l)) ++ s ≠
        Char.ofNat 125 :: t := by
    intro e l s t heq
    rcases hsep with rfl | rfl
    · rw [List.nil_append, stringText, List.cons_append, List.cons_append, List.cons.injEq] at heq
      exact absurd heq.1 (by decide)
    · simp at heq
  induction l generalizing sep l' with
  | nil =>
    cases l' with
    | nil => exact ⟨rfl, by simpa [members] using h⟩
    | cons e l' => exact absurd h.symm (hend e l' t s)
  | cons e l ih =>
    rw [List.forall_mem_cons] at hl
    cases l' with
    | nil => exact absurd h (hend e l s t)
    | cons f l' =>
      simp only [members, List.append_assoc, List.cons_append] at h
      have h := List.append_cancel_left h
      obtain ⟨hkey, h⟩ := stringText_selfDelimiting e.1 f.1 trivial trivial _ _ h
      rw [List.cons.injEq] at h
      obtain ⟨hvalue, hrest⟩ :=
        hl.1 f.2 _ _ (closed_members rfl l s) (closed_members rfl l' t) h.2
      obtain ⟨rfl, hst⟩ := ih hl.2 (Or.inr rfl) hrest (by simp)
      exact ⟨by rw [Prod.ext hkey hvalue], hst⟩

theorem readsBack (a : Json) : ReadsBack a := by
  induction a using induct with
  | null =>
    intro b s t hs ht h
    have hkind := kind_eq h
    cases b with
    | null => exact ⟨rfl, List.append_cancel_left h⟩
    | _ => cases hkind
  | bool a =>
    intro b s t hs ht h
    have hkind := kind_eq h
    cases b with
    | bool b => cases a <;> cases b <;> simp_all [text]
    | _ => cases hkind
  | int m =>
    intro b s t hs ht h
    have hkind := kind_eq h
    cases b with
    | int n =>
      obtain ⟨rfl, hst⟩ := intText_closed hs ht (by simpa only [text] using h)
      exact ⟨rfl, hst⟩
    | _ => cases hkind
  | str a =>
    intro b s t hs ht h
    have hkind := kind_eq h
    cases b with
    | str b =>
      obtain ⟨rfl, hst⟩ := stringText_selfDelimiting a b trivial trivial s t
        (by simpa only [text] using h)
      exact ⟨rfl, hst⟩
    | _ => cases hkind
  | list l ih =>
    intro b s t hs ht h
    have hkind := kind_eq h
    cases b with
    | list l' =>
      rw [text, text, List.cons_append, List.cons_append, List.cons.injEq] at h
      obtain ⟨rfl, hst⟩ := elements_readBack ih (Or.inl rfl) h.2
      exact ⟨rfl, hst⟩
    | _ => cases hkind
  | dict l ih =>
    intro b s t hs ht h
    have hkind := kind_eq h
    cases b with
    | dict l' =>
      rw [text, text, List.cons_append, List.cons_append, List.cons.injEq] at h
      obtain ⟨rfl, hst⟩ := members_readBack ih (Or.inl rfl) h.2
      exact ⟨rfl, hst⟩
    | _ => cases hkind

/-- Different values have different texts. -/
theorem text_injective : Function.Injective text := by
  intro a b h
  have hempty : Closed [] := fun _ hc => absurd hc (by simp)
  exact (readsBack a b [] [] hempty hempty (by rw [h])).1

end Json

end NpuArc
