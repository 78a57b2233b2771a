import NpuArc.Library.JsonReader

/-!
# JSON texts in a row

A reader that has reached the end of an object does not look at what follows it. So where
texts of objects are written one behind the other, with nothing between them, each of them
ends in one place only.
-/

namespace NpuArc

namespace Json

variable {V : Type}

/-! ### Strings -/

theorem readHex4_append {s r : List Char} {n : ℕ} (h : readHex4 s = some (n, r)) (t : List Char) :
    readHex4 (s ++ t) = some (n, r ++ t) := by
  rcases s with _ | ⟨a, _ | ⟨b, _ | ⟨c, _ | ⟨d, s⟩⟩⟩⟩
  · cases h
  · cases h
  · cases h
  · cases h
  · simp only [List.cons_append, readHex4, Option.bind_eq_bind, Option.bind_eq_some_iff,
      Option.some.injEq, Prod.mk.injEq] at h ⊢
    obtain ⟨a', ha, b', hb, c', hc, d', hd, rfl, rfl⟩ := h
    exact ⟨a', ha, b', hb, c', hc, d', hd, rfl, rfl⟩

theorem readPartner_append {high : ℕ} {s r : List Char} {c : Char}
    (h : readPartner high s = some (c, r)) (t : List Char) :
    readPartner high (s ++ t) = some (c, r ++ t) := by
  rcases s with _ | ⟨a, _ | ⟨b, s⟩⟩
  · cases h
  · cases h
  · rw [List.cons_append, List.cons_append, readPartner]
    rw [readPartner] at h
    by_cases hu : a = backslash ∧ b = 'u'
    · rw [if_pos hu] at h ⊢
      obtain ⟨⟨low, rest⟩, hlow, h⟩ := Option.bind_eq_some_iff.mp h
      refine Option.bind_eq_some_iff.mpr ⟨_, readHex4_append hlow t, ?_⟩
      dsimp only at h ⊢
      by_cases hrange : 56320 ≤ low ∧ low ≤ 57343
      · rw [if_pos hrange, Option.some.injEq, Prod.mk.injEq] at h
        rw [if_pos hrange, Option.some.injEq, Prod.mk.injEq]
        exact ⟨h.1, congrArg (· ++ t) h.2⟩
      · rw [if_neg hrange] at h
        cases h
    · rw [if_neg hu] at h
      cases h

theorem readUnicode_append {s r : List Char} {c : Char} (h : readUnicode s = some (c, r))
    (t : List Char) : readUnicode (s ++ t) = some (c, r ++ t) := by
  obtain ⟨⟨n, rest⟩, hn, h⟩ := Option.bind_eq_some_iff.mp h
  refine Option.bind_eq_some_iff.mpr ⟨_, readHex4_append hn t, ?_⟩
  dsimp only at h ⊢
  split_ifs at h ⊢ with hhigh hlow
  · exact readPartner_append h t
  · cases h
    rfl

theorem readEscape_append {s r : List Char} {c : Char} (h : readEscape s = some (c, r))
    (t : List Char) : readEscape (s ++ t) = some (c, r ++ t) := by
  cases s with
  | nil => cases h
  | cons d s =>
    simp only [List.cons_append, readEscape] at h ⊢
    split_ifs at h ⊢ with hu
    · exact readUnicode_append h t
    · obtain ⟨e, he, heq⟩ := Option.map_eq_some_iff.mp h
      cases heq
      exact Option.map_eq_some_iff.mpr ⟨_, he, rfl⟩

/-- The characters of a string are read in the same way if more text follows. -/
theorem readChars_append {n m : ℕ} (hnm : n ≤ m) {s r l : List Char}
    (h : readChars n s = some (l, r)) (t : List Char) :
    readChars m (s ++ t) = some (l, r ++ t) := by
  induction n generalizing m s l with
  | zero => cases h
  | succ n ih =>
    obtain ⟨m, rfl⟩ : ∃ k, m = k + 1 := ⟨m - 1, by omega⟩
    cases s with
    | nil => cases h
    | cons c s =>
      simp only [List.cons_append, readChars] at h ⊢
      split_ifs at h ⊢ with hquote hescape hcontrol
      · cases h
        rfl
      · obtain ⟨⟨d, rest⟩, hd, h⟩ := Option.bind_eq_some_iff.mp h
        obtain ⟨⟨l', rest'⟩, hl, h⟩ := Option.bind_eq_some_iff.mp h
        cases h
        exact Option.bind_eq_some_iff.mpr ⟨_, readEscape_append hd t,
          Option.bind_eq_some_iff.mpr ⟨_, ih (by omega) hl, rfl⟩⟩
      · obtain ⟨⟨l', rest'⟩, hl, h⟩ := Option.bind_eq_some_iff.mp h
        cases h
        exact Option.bind_eq_some_iff.mpr ⟨_, ih (by omega) hl, rfl⟩

theorem readString_append {s r : List Char} {a : String} (h : readString s = some (a, r))
    (t : List Char) : readString (s ++ t) = some (a, r ++ t) := by
  obtain ⟨⟨l, rest⟩, hl, heq⟩ := Option.map_eq_some_iff.mp h
  cases heq
  have hlength : s.length ≤ (s ++ t).length := by
    rw [List.length_append]
    omega
  have hmore := readChars_append hlength hl t
  exact Option.map_eq_some_iff.mpr ⟨_, hmore, rfl⟩

/-! ### Numbers and words -/

/-- A text that goes on with a character that is of no number. -/
def Delimited (s : List Char) : Prop :=
  ∃ c rest, s = c :: rest ∧ c.isDigit = false ∧ c ≠ '.' ∧ c ≠ 'e' ∧ c ≠ 'E'

theorem Delimited.ne_nil {s : List Char} (h : Delimited s) : s ≠ [] := by
  obtain ⟨c, rest, rfl, -⟩ := h
  exact List.cons_ne_nil c rest

theorem drop_takeWhile (p : Char → Bool) (s : List Char) :
    s.drop (s.takeWhile p).length = s.dropWhile p := by
  induction s with
  | nil => rfl
  | cons c s ih => cases hc : p c <;> simp [hc, ih]

theorem takeWhile_append_of_ne_nil {p : Char → Bool} {s : List Char}
    (h : s.drop (s.takeWhile p).length ≠ []) (t : List Char) :
    (s ++ t).takeWhile p = s.takeWhile p := by
  rw [List.takeWhile_append, if_neg]
  intro hlength
  rw [hlength, List.drop_length] at h
  exact h rfl

theorem integerDigits_append {s : List Char} (h : s.drop (integerDigits s).length ≠ [])
    (t : List Char) : integerDigits (s ++ t) = integerDigits s := by
  cases s with
  | nil => exact absurd rfl h
  | cons c s =>
    by_cases hc : c = '0'
    · subst hc
      rfl
    · have hdigits : ∀ u, integerDigits (c :: u) = (c :: u).takeWhile Char.isDigit := by
        intro u
        rw [integerDigits]
        rintro _ heq
        exact hc (List.cons.inj heq).1
      rw [hdigits] at h
      rw [List.cons_append, hdigits, hdigits, ← List.cons_append, takeWhile_append_of_ne_nil h]

/-- Where no digit follows a point, there is no fraction, and the point is left. -/
theorem fractionText_append {s : List Char} (hdrop : s.drop (fractionText s).length ≠ [])
    (hpoint : (s.drop (fractionText s).length).head? ≠ some '.') (t : List Char) :
    fractionText (s ++ t) = fractionText s := by
  cases s with
  | nil => exact absurd rfl hdrop
  | cons c s =>
    by_cases hc : c = '.'
    · subst hc
      by_cases hdigits : s.takeWhile Char.isDigit = []
      · have hnone : fractionText ('.' :: s) = [] := if_pos hdigits
        rw [hnone] at hpoint
        exact absurd rfl hpoint
      · have hsome : fractionText ('.' :: s) = '.' :: s.takeWhile Char.isDigit := if_neg hdigits
        rw [hsome, List.length_cons, List.drop_succ_cons] at hdrop
        have hmore : fractionText ('.' :: (s ++ t)) = '.' :: (s ++ t).takeWhile Char.isDigit :=
          if_neg (by rwa [takeWhile_append_of_ne_nil hdrop])
        rw [List.cons_append, hmore, hsome, takeWhile_append_of_ne_nil hdrop]
    · have hnone : ∀ u, fractionText (c :: u) = [] := by
        intro u
        rw [fractionText]
        rintro _ heq
        exact hc (List.cons.inj heq).1
      rw [List.cons_append, hnone, hnone]

theorem signText_append {s : List Char} (h : s ≠ []) (t : List Char) :
    signText (s ++ t) = signText s := by
  cases s with
  | nil => exact absurd rfl h
  | cons c s =>
    by_cases hplus : c = '+'
    · subst hplus
      rfl
    · by_cases hminus : c = '-'
      · subst hminus
        rfl
      · have hnone : ∀ u, signText (c :: u) = [] := by
          intro u
          rw [signText]
          · rintro _ heq
            exact hplus (List.cons.inj heq).1
          · rintro _ heq
            exact hminus (List.cons.inj heq).1
        rw [List.cons_append, hnone, hnone]

theorem signText_length_le (s : List Char) : (signText s).length ≤ s.length := by
  unfold signText
  split <;> simp

theorem exponentText_append {s : List Char} (h : Delimited (s.drop (exponentText s).length))
    (t : List Char) : exponentText (s ++ t) = exponentText s := by
  cases s with
  | nil => exact absurd rfl h.ne_nil
  | cons c s =>
    by_cases he : c = 'e' ∨ c = 'E'
    · by_cases hdigits : (s.drop (signText s).length).takeWhile Char.isDigit = []
      · have hnone : exponentText (c :: s) = [] := if_neg fun h => h.2 hdigits
        rw [hnone] at h
        obtain ⟨d, rest, heq, -, -, hlower, hupper⟩ := h
        rw [← (List.cons.inj heq).1] at hlower hupper
        exact absurd he (not_or.mpr ⟨hlower, hupper⟩)
      · have hsome : ∀ u, (u.drop (signText u).length).takeWhile Char.isDigit ≠ [] →
            exponentText (c :: u) =
              c :: (signText u ++ (u.drop (signText u).length).takeWhile Char.isDigit) :=
          fun u hu => if_pos ⟨he, hu⟩
        have hs : s ≠ [] := by
          rintro rfl
          exact hdigits rfl
        have hdrop := h.ne_nil
        rw [hsome s hdigits, List.length_cons, List.drop_succ_cons, List.length_append,
          ← List.drop_drop] at hdrop
        have hmore : (((s ++ t).drop (signText s).length).takeWhile Char.isDigit) =
            (s.drop (signText s).length).takeWhile Char.isDigit := by
          rw [List.drop_append_of_le_length (signText_length_le s),
            takeWhile_append_of_ne_nil hdrop]
        rw [List.cons_append, hsome s hdigits, hsome (s ++ t), signText_append hs, hmore]
        rw [signText_append hs, hmore]
        exact hdigits
    · have hnone : ∀ u, exponentText (c :: u) = [] := fun u => if_neg fun h => he h.1
      rw [List.cons_append, hnone, hnone]

theorem readMagnitude_append {h : Hooks V} {negative : Bool} {s r : List Char} {v : V}
    (hread : readMagnitude h negative s = some (v, r)) (hr : Delimited r) (t : List Char) :
    readMagnitude h negative (s ++ t) = some (v, r ++ t) := by
  unfold readMagnitude at hread ⊢
  dsimp only at hread ⊢
  by_cases hdigits : integerDigits s = []
  · rw [if_pos hdigits] at hread
    cases hread
  · rw [if_neg hdigits] at hread
    -- What is left starts behind the digits, the fraction and the exponent.
    have hrest : ((s.drop (integerDigits s).length).drop (fractionText
        (s.drop (integerDigits s).length)).length).drop (exponentText
          ((s.drop (integerDigits s).length).drop (fractionText
            (s.drop (integerDigits s).length)).length)).length = r := by
      by_cases hint : fractionText (s.drop (integerDigits s).length) = [] ∧ exponentText
          ((s.drop (integerDigits s).length).drop (fractionText
            (s.drop (integerDigits s).length)).length) = []
      · rw [if_pos hint, Option.some.injEq, Prod.mk.injEq] at hread
        rw [hint.2, hint.1]
        exact hread.2
      · rw [if_neg hint, Option.some.injEq, Prod.mk.injEq] at hread
        rw [List.drop_drop]
        exact hread.2
    generalize hs₁ : s.drop (integerDigits s).length = s₁ at hread hrest
    generalize hs₂ : s₁.drop (fractionText s₁).length = s₂ at hread hrest
    have hs₂' : s₂ ≠ [] := by
      rintro rfl
      exact hr.ne_nil (by rw [← hrest]; rfl)
    have hs₁' : s₁ ≠ [] := by
      rintro rfl
      exact hs₂' (by rw [← hs₂]; rfl)
    have hpoint : s₂.head? ≠ some '.' := by
      intro hhead
      obtain ⟨rest, hs₂⟩ := List.head?_eq_some_iff.mp hhead
      have hnone : exponentText s₂ = [] := by
        rw [hs₂, exponentText, if_neg]
        rintro ⟨he, -⟩
        revert he
        decide
      rw [hnone] at hrest
      obtain ⟨c, rest', hr, -, hne, -⟩ := hr
      have heq : s₂ = c :: rest' := hrest.trans hr
      rw [heq, List.head?_cons, Option.some.injEq] at hhead
      exact hne hhead
    have hinteger : integerDigits (s ++ t) = integerDigits s :=
      integerDigits_append (by rw [hs₁]; exact hs₁') t
    have hdrop₁ : (s ++ t).drop (integerDigits s).length = s₁ ++ t := by
      rw [List.drop_append_of_le_length, hs₁]
      by_contra hle
      exact hs₁' (by rw [← hs₁, List.drop_eq_nil_iff]; omega)
    have hfraction : fractionText (s₁ ++ t) = fractionText s₁ :=
      fractionText_append (by rw [hs₂]; exact hs₂') (by rw [hs₂]; exact hpoint) t
    have hdrop₂ : (s₁ ++ t).drop (fractionText s₁).length = s₂ ++ t := by
      rw [List.drop_append_of_le_length, hs₂]
      by_contra hle
      exact hs₂' (by rw [← hs₂, List.drop_eq_nil_iff]; omega)
    have hexponent : exponentText (s₂ ++ t) = exponentText s₂ :=
      exponentText_append (by rw [hrest]; exact hr) t
    have hdrop₃ : (s₁ ++ t).drop ((fractionText s₁).length + (exponentText s₂).length) =
        r ++ t := by
      rw [← List.drop_drop, hdrop₂, List.drop_append_of_le_length, hrest]
      by_contra hle
      exact hr.ne_nil (by rw [← hrest, List.drop_eq_nil_iff]; omega)
    rw [hinteger, if_neg hdigits, hdrop₁, hfraction, hdrop₂, hexponent]
    by_cases hint : fractionText s₁ = [] ∧ exponentText s₂ = []
    · rw [if_pos hint, Option.some.injEq, Prod.mk.injEq] at hread ⊢
      rw [hint.1, hint.2, List.length_nil, Nat.add_zero, List.drop_zero] at hdrop₃
      exact ⟨hread.1, hdrop₃⟩
    · rw [if_neg hint, Option.some.injEq, Prod.mk.injEq] at hread ⊢
      exact ⟨hread.1, hdrop₃⟩

theorem readWord_append {word : String} {s r : List Char} {v w : V}
    (h : readWord word v s = some (w, r)) (t : List Char) :
    readWord word v (s ++ t) = some (w, r ++ t) := by
  unfold readWord at h ⊢
  split_ifs at h with hword
  have hlength : word.length ≤ s.length := by
    have htake := congrArg List.length hword
    rw [List.length_take, String.length_toList] at htake
    omega
  rw [List.take_append_of_le_length hlength, if_pos hword,
    List.drop_append_of_le_length hlength]
  rw [Option.some.injEq, Prod.mk.injEq] at h ⊢
  exact ⟨h.1, congrArg (· ++ t) h.2⟩

/-- A number without its sign starts with a digit. -/
theorem head_of_readMagnitude {h : Hooks V} {negative : Bool} {s : List Char} {x : V × List Char}
    (hread : readMagnitude h negative s = some x) : ∃ c rest, s = c :: rest ∧ c.isDigit = true := by
  unfold readMagnitude at hread
  dsimp only at hread
  by_cases hdigits : integerDigits s = []
  · rw [if_pos hdigits] at hread
    cases hread
  · cases s with
    | nil => exact absurd rfl hdigits
    | cons c s =>
      refine ⟨c, s, rfl, ?_⟩
      by_contra hc
      refine hdigits ?_
      rw [integerDigits, List.takeWhile_cons_of_neg hc]
      rintro _ heq
      rw [(List.cons.inj heq).1] at hc
      exact hc rfl

theorem readPlain_append {h : Hooks V} {s r : List Char} {v : V}
    (hread : readPlain h s = some (v, r)) (hr : Delimited r) (t : List Char) :
    readPlain h (s ++ t) = some (v, r ++ t) := by
  cases s with
  | nil =>
    have hmagnitude : readMagnitude h false [] = some (v, r) := hread
    obtain ⟨c, rest, heq, -⟩ := head_of_readMagnitude hmagnitude
    cases heq
  | cons c s =>
    unfold readPlain at hread ⊢
    rw [List.cons_append, List.head?_cons]
    rw [List.head?_cons] at hread
    split at hread
    case h_1 heq => cases heq; exact readWord_append hread t
    case h_2 heq => cases heq; exact readWord_append hread t
    case h_3 heq => cases heq; exact readWord_append hread t
    case h_4 heq => cases heq; exact readWord_append hread t
    case h_5 heq => cases heq; exact readWord_append hread t
    case h_6 heq =>
      cases heq
      rcases Option.or_eq_some_iff.mp hread with hword | ⟨hword, hmagnitude⟩
      · exact Option.or_eq_some_iff.mpr (Or.inl (readWord_append hword t))
      · refine Option.or_eq_some_iff.mpr (Or.inr ⟨?_, readMagnitude_append hmagnitude hr t⟩)
        obtain ⟨c, rest, hs, hc⟩ := head_of_readMagnitude hmagnitude
        rw [List.tail_cons] at hs
        subst hs
        unfold readWord
        rw [if_neg]
        intro heq
        have hI : some c = some 'I' := congrArg (fun l => l.tail.head?) heq
        rw [Option.some.inj hI] at hc
        cases hc
    case h_7 => exact readMagnitude_append hread hr t

/-! ### Values -/

/-- A character that ends a value is of no number. -/
theorem delimited_of_skipBlanks {s rest : List Char} {c : Char} (h : skipBlanks s = c :: rest)
    (hc : c = ',' ∨ c = ']' ∨ c = Char.ofNat 125) : Delimited s := by
  cases s with
  | nil => cases h
  | cons d s =>
    by_cases hd : isBlank d = true
    · refine ⟨d, s, rfl, ?_⟩
      rw [isBlank, decide_eq_true_eq] at hd
      simp only [List.mem_cons, List.not_mem_nil, or_false] at hd
      have hchar : d = Char.ofNat d.toNat := (Char.ofNat_toNat d).symm
      rcases hd with hn | hn | hn | hn <;> rw [hchar, hn] <;> decide
    · rw [skipBlanks_cons (by simpa using hd)] at h
      obtain ⟨rfl, -⟩ := List.cons.inj h
      refine ⟨d, s, rfl, ?_⟩
      rcases hc with rfl | rfl | rfl <;> decide

theorem skipBlanks_append {s : List Char} (h : skipBlanks s ≠ []) (t : List Char) :
    skipBlanks (s ++ t) = skipBlanks s ++ t := by
  induction s with
  | nil => exact absurd rfl h
  | cons c s ih =>
    by_cases hc : isBlank c = true
    · have hskip : ∀ u, skipBlanks (c :: u) = skipBlanks u := fun u =>
        List.dropWhile_cons_of_pos hc
      rw [hskip] at h
      rw [List.cons_append, hskip, hskip, ih h]
    · rw [List.cons_append, skipBlanks_cons (by simpa using hc),
        skipBlanks_cons (by simpa using hc), List.cons_append]

/-- A second reader reads what a first one reads if a text follows, where the first one stops at
a character that is of no number. -/
structure GoesOn (read read' : List Char → Option (V × List Char)) (t : List Char) : Prop where
  nil : read [] = none
  append : ∀ s v r, read s = some (v, r) → Delimited r → read' (s ++ t) = some (v, r ++ t)

theorem readElements_nil {read : List Char → Option (V × List Char)} (h : read [] = none) (n : ℕ) :
    readElements read n [] = none := by
  cases n with
  | zero => rfl
  | succ n => rw [readElements, h]; rfl

theorem readElements_append {read read' : List Char → Option (V × List Char)} {t : List Char}
    (hread : GoesOn read read' t) {n m : ℕ} (hnm : n ≤ m) {s r : List Char} {l : List V}
    (h : readElements read n s = some (l, r)) :
    readElements read' m (s ++ t) = some (l, r ++ t) := by
  induction n generalizing m s l with
  | zero => cases h
  | succ n ih =>
    obtain ⟨m, rfl⟩ : ∃ k, m = k + 1 := ⟨m - 1, by omega⟩
    obtain ⟨⟨v, s₁⟩, hv, h⟩ := Option.bind_eq_some_iff.mp h
    dsimp only at h
    split at h
    case h_1 s₂ hskip =>
      have hmore := hread.append _ _ _ hv (delimited_of_skipBlanks hskip (Or.inr (Or.inl rfl)))
      cases h
      refine Option.bind_eq_some_iff.mpr ⟨_, hmore, ?_⟩
      dsimp only
      rw [skipBlanks_append (by rw [hskip]; exact List.cons_ne_nil _ _), hskip]
      rfl
    case h_2 s₂ hskip =>
      have hmore := hread.append _ _ _ hv (delimited_of_skipBlanks hskip (Or.inl rfl))
      obtain ⟨⟨l', s₃⟩, hl, h⟩ := Option.bind_eq_some_iff.mp h
      cases h
      have hrest : skipBlanks s₂ ≠ [] := by
        intro hnil
        rw [hnil, readElements_nil hread.nil] at hl
        cases hl
      have hl' := ih (show n ≤ m by omega) hl
      rw [← skipBlanks_append hrest] at hl'
      refine Option.bind_eq_some_iff.mpr ⟨_, hmore, ?_⟩
      dsimp only
      rw [skipBlanks_append (by rw [hskip]; exact List.cons_ne_nil _ _), hskip]
      exact Option.bind_eq_some_iff.mpr ⟨_, hl', rfl⟩
    case h_3 => cases h

/-- The member of an object is read in the same way if more text follows. -/
theorem readMember_append {read read' : List Char → Option (V × List Char)} {t : List Char}
    (hread : GoesOn read read' t) {s r : List Char} {e : String × V}
    (h : readMember read s = some (e, r)) (hr : Delimited r) :
    readMember read' (s ++ t) = some (e, r ++ t) := by
  cases s with
  | nil => cases h
  | cons c s =>
    unfold readMember at h ⊢
    rw [List.cons_append, List.head?_cons, List.tail_cons]
    rw [List.head?_cons, List.tail_cons] at h
    by_cases hquote : some c ≠ some quote
    · rw [if_pos hquote] at h
      cases h
    · rw [if_neg hquote] at h ⊢
      obtain ⟨⟨key, s₁⟩, hkey, h⟩ := Option.bind_eq_some_iff.mp h
      refine Option.bind_eq_some_iff.mpr ⟨_, readString_append hkey t, ?_⟩
      dsimp only at h ⊢
      cases hskip : skipBlanks s₁ with
      | nil => rw [hskip] at h; cases h
      | cons d s₂ =>
        rw [skipBlanks_append (by rw [hskip]; exact List.cons_ne_nil _ _), hskip,
          List.cons_append, List.head?_cons, List.tail_cons]
        rw [hskip, List.head?_cons, List.tail_cons] at h
        by_cases hcolon : some d ≠ some ':'
        · rw [if_pos hcolon] at h
          cases h
        · rw [if_neg hcolon] at h ⊢
          obtain ⟨⟨v, s₃⟩, hv, h⟩ := Option.bind_eq_some_iff.mp h
          cases h
          have hrest : skipBlanks s₂ ≠ [] := by
            intro hnil
            rw [hnil, hread.nil] at hv
            cases hv
          refine Option.bind_eq_some_iff.mpr ⟨(v, s₃ ++ t), ?_, rfl⟩
          rw [skipBlanks_append hrest]
          exact hread.append _ _ _ hv hr

theorem readMembers_nil (read : List Char → Option (V × List Char)) (n : ℕ) :
    readMembers read n [] = none := by
  cases n <;> rfl

theorem readMembers_append {read read' : List Char → Option (V × List Char)} {t : List Char}
    (hread : GoesOn read read' t) {n m : ℕ} (hnm : n ≤ m) {s r : List Char}
    {l : List (String × V)} (h : readMembers read n s = some (l, r)) :
    readMembers read' m (s ++ t) = some (l, r ++ t) := by
  induction n generalizing m s l with
  | zero => cases h
  | succ n ih =>
    obtain ⟨m, rfl⟩ : ∃ k, m = k + 1 := ⟨m - 1, by omega⟩
    obtain ⟨⟨e, s₁⟩, he, h⟩ := Option.bind_eq_some_iff.mp h
    dsimp only at h
    cases hskip : skipBlanks s₁ with
    | nil => rw [hskip] at h; cases h
    | cons c s₂ =>
      have happend : skipBlanks (s₁ ++ t) = c :: (s₂ ++ t) := by
        rw [skipBlanks_append (by rw [hskip]; exact List.cons_ne_nil _ _), hskip,
          List.cons_append]
      rw [hskip, List.head?_cons, List.tail_cons] at h
      by_cases hend : c = Char.ofNat 125
      · rw [if_pos (congrArg some hend)] at h
        cases h
        have hmore := readMember_append hread he
          (delimited_of_skipBlanks hskip (Or.inr (Or.inr hend)))
        refine Option.bind_eq_some_iff.mpr ⟨_, hmore, ?_⟩
        dsimp only
        rw [happend, List.head?_cons, if_pos (congrArg some hend), List.tail_cons]
      · rw [if_neg fun heq => hend (Option.some.inj heq)] at h
        by_cases hcomma : c = ','
        · rw [if_pos (congrArg some hcomma)] at h
          obtain ⟨⟨l', s₃⟩, hl, h⟩ := Option.bind_eq_some_iff.mp h
          cases h
          have hmore := readMember_append hread he (delimited_of_skipBlanks hskip (Or.inl hcomma))
          have hrest : skipBlanks s₂ ≠ [] := by
            intro hnil
            rw [hnil, readMembers_nil] at hl
            cases hl
          have hl' := ih (show n ≤ m by omega) hl
          rw [← skipBlanks_append hrest] at hl'
          refine Option.bind_eq_some_iff.mpr ⟨_, hmore, ?_⟩
          dsimp only
          rw [happend, List.head?_cons, if_neg fun heq => hend (Option.some.inj heq),
            if_pos (congrArg some hcomma), List.tail_cons]
          exact Option.bind_eq_some_iff.mpr ⟨_, hl', rfl⟩
        · rw [if_neg fun heq => hcomma (Option.some.inj heq)] at h
          cases h

theorem readValue_nil (h : Hooks V) (n : ℕ) : readValue h n [] = none := by
  cases n <;> rfl

/-- A value is read in the same way if more text follows, if the text of the value is over: it is
a string, a list or an object, or a character follows that is of no number. -/
theorem readValue_append (h : Hooks V) {n m : ℕ} (hnm : n ≤ m) {s r : List Char} {v : V}
    (hread : readValue h n s = some (v, r))
    (hover : Delimited r ∨ ∃ c ∈ [quote, '[', Char.ofNat 123], s.head? = some c) (t : List Char) :
    readValue h m (s ++ t) = some (v, r ++ t) := by
  induction n generalizing m s v r with
  | zero => cases hread
  | succ n ih =>
    obtain ⟨m, rfl⟩ : ∃ k, m = k + 1 := ⟨m - 1, by omega⟩
    have hgoes : GoesOn (readValue h n) (readValue h m) t :=
      ⟨readValue_nil h n, fun _ _ _ hv hr => ih (by omega) hv (Or.inl hr)⟩
    cases s with
    | nil => cases hread
    | cons c s =>
      unfold readValue at hread ⊢
      rw [List.cons_append, List.head?_cons, List.tail_cons]
      rw [List.head?_cons, List.tail_cons] at hread
      by_cases hquote : c = quote
      · rw [if_pos (congrArg some hquote)] at hread ⊢
        obtain ⟨x, hx, heq⟩ := Option.map_eq_some_iff.mp hread
        cases heq
        exact Option.map_eq_some_iff.mpr ⟨_, readString_append hx t, rfl⟩
      rw [if_neg fun heq => hquote (Option.some.inj heq)] at hread ⊢
      by_cases hlist : c = '['
      · rw [if_pos (congrArg some hlist)] at hread ⊢
        dsimp only at hread ⊢
        cases hskip : skipBlanks s with
        | nil =>
          rw [hskip, if_neg (by simp), readElements_nil (readValue_nil h n)] at hread
          cases hread
        | cons d s₁ =>
          have hmore : skipBlanks (s ++ t) = d :: (s₁ ++ t) := by
            rw [skipBlanks_append (by rw [hskip]; exact List.cons_ne_nil _ _), hskip,
              List.cons_append]
          rw [hskip, List.head?_cons, List.tail_cons] at hread
          rw [hmore, List.head?_cons, List.tail_cons]
          by_cases hend : some d = some ']'
          · rw [if_pos hend] at hread ⊢
            cases hread
            rfl
          · rw [if_neg hend] at hread ⊢
            obtain ⟨x, hx, heq⟩ := Option.map_eq_some_iff.mp hread
            cases heq
            have hlength : (d :: s₁).length ≤ (d :: (s₁ ++ t)).length := by simp
            exact Option.map_eq_some_iff.mpr ⟨_, readElements_append hgoes hlength hx, rfl⟩
      rw [if_neg fun heq => hlist (Option.some.inj heq)] at hread ⊢
      by_cases hdict : c = Char.ofNat 123
      · rw [if_pos (congrArg some hdict)] at hread ⊢
        dsimp only at hread ⊢
        cases hskip : skipBlanks s with
        | nil =>
          rw [hskip, if_neg (by simp), readMembers_nil] at hread
          cases hread
        | cons d s₁ =>
          have hmore : skipBlanks (s ++ t) = d :: (s₁ ++ t) := by
            rw [skipBlanks_append (by rw [hskip]; exact List.cons_ne_nil _ _), hskip,
              List.cons_append]
          rw [hskip, List.head?_cons, List.tail_cons] at hread
          rw [hmore, List.head?_cons, List.tail_cons]
          by_cases hend : some d = some (Char.ofNat 125)
          · rw [if_pos hend] at hread ⊢
            cases hread
            rfl
          · rw [if_neg hend] at hread ⊢
            obtain ⟨x, hx, heq⟩ := Option.map_eq_some_iff.mp hread
            cases heq
            have hlength : (d :: s₁).length ≤ (d :: (s₁ ++ t)).length := by simp
            exact Option.map_eq_some_iff.mpr ⟨_, readMembers_append hgoes hlength hx, rfl⟩
      rw [if_neg fun heq => hdict (Option.some.inj heq)] at hread ⊢
      rw [← List.cons_append]
      refine readPlain_append hread (hover.resolve_right ?_) t
      rintro ⟨d, hd, hhead⟩
      rw [List.head?_cons, Option.some.injEq] at hhead
      subst hhead
      simp only [List.mem_cons, List.not_mem_nil, or_false] at hd
      rcases hd with hd | hd | hd
      · exact hquote hd
      · exact hlist hd
      · exact hdict hd

/-! ### Texts in a row -/

/-- If a text can be parsed, and with another one behind it is the text of an object with
something behind it, then this object is all of it but white space. -/
theorem eq_of_loads {h : Hooks V} {s t u : List Char} {v : V} {l : List (String × Json)}
    (hloads : loads h s = some v) (heq : s ++ t = text (.dict l) ++ u) :
    ∃ blanks, skipBlanks blanks = [] ∧ s = text (.dict l) ++ blanks ∧ blanks ++ t = u := by
  obtain ⟨⟨v', r⟩, hread, hblank⟩ := Option.bind_eq_some_iff.mp hloads
  dsimp only at hblank
  split_ifs at hblank with hr
  obtain ⟨rest, htext⟩ : ∃ rest, text (.dict l) = Char.ofNat 123 :: rest := ⟨_, by rw [text]⟩
  have hbrace : ∃ c ∈ [quote, '[', Char.ofNat 123], some (Char.ofNat 123) = some c :=
    ⟨_, by simp, rfl⟩
  cases s with
  | nil =>
    rw [skipBlanks, List.dropWhile_nil, readValue_nil] at hread
    cases hread
  | cons c s =>
    have hc : c = Char.ofNat 123 := by
      rw [htext] at heq
      exact (List.cons.inj heq).1
    subst hc
    rw [skipBlanks_cons (by decide)] at hread
    have htake := readValue_text h (.dict l) (Nat.le_refl _) [] ends_nil
    rw [List.append_nil] at htake
    have hfuel := Nat.le_max_left ((Char.ofNat 123 :: s).length + 1) (text (.dict l)).length
    have hfuel' := Nat.le_max_right ((Char.ofNat 123 :: s).length + 1) (text (.dict l)).length
    -- Both readings go on into the common text, where they stop at the same place.
    have hfirst := readValue_append h hfuel hread (Or.inr hbrace) t
    have hsecond := readValue_append h hfuel' htake
      (Or.inr (by rw [htext]; exact hbrace)) u
    rw [heq, hsecond] at hfirst
    have hrest : u = r ++ t := by
      have hpair := Option.some.inj hfirst
      exact (Prod.mk.inj hpair).2
    refine ⟨r, hr, ?_, hrest.symm⟩
    rw [hrest, ← List.append_assoc] at heq
    exact List.append_cancel_right heq

/-- The texts of objects in a row, each of which can be parsed, are those of the objects that
their row is the text of. -/
theorem eq_of_loads_row {h : Hooks V} {texts : List (List Char)}
    {objects : List (List (String × Json))}
    (hloads : ∀ s ∈ texts, ∃ v, loads h s = some v) (hlength : texts.length = objects.length)
    (heq : texts.flatten = (objects.map fun l => text (.dict l)).flatten) :
    texts = objects.map fun l => text (.dict l) := by
  induction objects generalizing texts with
  | nil =>
    rw [List.length_nil, List.length_eq_zero_iff] at hlength
    exact hlength
  | cons l objects ih =>
    cases texts with
    | nil => cases hlength
    | cons s texts =>
      rw [List.forall_mem_cons] at hloads
      obtain ⟨⟨v, hv⟩, hloads⟩ := hloads
      rw [List.map_cons, List.flatten_cons, List.flatten_cons] at heq
      obtain ⟨blanks, hblanks, hs, hrest⟩ := eq_of_loads hv heq
      have hnil : blanks = [] := by
        cases blanks with
        | nil => rfl
        | cons c blanks =>
          cases objects with
          | nil => cases hrest
          | cons l' objects =>
            have hc : c = Char.ofNat 123 := by
              rw [List.map_cons, List.flatten_cons, text] at hrest
              exact (List.cons.inj hrest).1
            rw [hc, skipBlanks_cons (by decide)] at hblanks
            cases hblanks
      rw [hnil, List.nil_append] at hrest
      rw [hnil, List.append_nil] at hs
      rw [List.map_cons, hs, ih hloads (by simpa using hlength) hrest]

end Json

end NpuArc
