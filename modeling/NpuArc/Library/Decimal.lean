import Mathlib.Data.Nat.Digits.Defs
import Mathlib.Data.List.Lex
import Mathlib.Data.String.Basic
import Mathlib.Tactic.Common

/-!
# Decimal numerals

Numerals padded with zeros to a fixed width determine their number, and as long as
the numbers fit the width, lexicographic order of the numerals is numeric order. A
numeral behind an underscore can be told from the name before it.
-/

namespace NpuArc

/-- The decimal digits of a number, padded with zeros to at least a given width. -/
def paddedDigits (width n : ℕ) : List Char := List.leftpad width '0' (Nat.toDigits 10 n)

/-- Padding does not change the number that a numeral denotes. -/
@[simp] theorem ofDigitChars_paddedDigits (width n : ℕ) :
    Nat.ofDigitChars 10 (paddedDigits width n) 0 = n := by
  rw [paddedDigits, List.leftpad, Nat.ofDigitChars_append, Nat.ofDigitChars_replicate_zero,
    Nat.mul_zero, Nat.ofDigitChars_ten_toDigits]

theorem paddedDigits_injective {width m n : ℕ}
    (h : paddedDigits width m = paddedDigits width n) : m = n := by
  rw [← ofDigitChars_paddedDigits width m, h, ofDigitChars_paddedDigits]

/-- A padded numeral consists of digits only. -/
theorem isDigit_of_mem_paddedDigits {width n : ℕ} {ch : Char}
    (h : ch ∈ paddedDigits width n) : ch.isDigit = true := by
  rw [paddedDigits, List.leftpad, List.mem_append] at h
  rcases h with h | h
  · rw [List.eq_of_mem_replicate h]
    rfl
  · exact Nat.isDigit_of_mem_toDigits (by decide) (by decide) h

/-- A number that fits the width has a numeral of exactly that width. -/
theorem length_paddedDigits {width n : ℕ} (hwidth : 0 < width) (hn : n < 10 ^ width) :
    (paddedDigits width n).length = width := by
  have hle := (Nat.length_toDigits_le_iff (by decide) hwidth).mpr hn
  rw [paddedDigits, List.leftpad, List.length_append, List.length_replicate]
  omega

/-- A digit is worth less than ten. -/
private theorem digit_bounds {ch : Char} (h : ch.isDigit = true) :
    48 ≤ ch.toNat ∧ ch.toNat - 48 < 10 := by
  rw [Char.isDigit, Bool.and_eq_true, decide_eq_true_eq, decide_eq_true_eq] at h
  have hlow : (48 : ℕ) ≤ ch.toNat := UInt32.le_iff_toNat_le.mp h.1
  have hhigh : ch.toNat ≤ 57 := UInt32.le_iff_toNat_le.mp h.2
  omega

private theorem ofDigitChars_lt_pow {l : List Char} (h : ∀ ch ∈ l, ch.isDigit = true) :
    Nat.ofDigitChars 10 l 0 < 10 ^ l.length := by
  induction l with
  | nil => simp
  | cons ch l ih =>
    have hl := ih fun d hd => h d (List.mem_cons_of_mem _ hd)
    have hch := (digit_bounds (h ch List.mem_cons_self)).2
    rw [Nat.ofDigitChars_cons, Nat.ofDigitChars_eq_ofDigitChars_zero, List.length_cons, pow_succ]
    simp only [Nat.mul_zero, Nat.zero_add, Char.reduceToNat]
    have hmul : 10 ^ l.length * (ch.toNat - 48) ≤ 10 ^ l.length * 9 :=
      Nat.mul_le_mul_left _ (by omega)
    omega

/-- Numerals of one length are ordered like their numbers. -/
theorem lt_of_ofDigitChars_lt {l l' : List Char} (hlen : l.length = l'.length)
    (h : ∀ ch ∈ l, ch.isDigit = true) (h' : ∀ ch ∈ l', ch.isDigit = true)
    (hlt : Nat.ofDigitChars 10 l 0 < Nat.ofDigitChars 10 l' 0) : l < l' := by
  induction l generalizing l' with
  | nil =>
    cases l' with
    | nil => simp at hlt
    | cons => simp at hlen
  | cons a l ih =>
    cases l' with
    | nil => simp at hlen
    | cons b l' =>
      have hlen' : l.length = l'.length := by simpa using hlen
      have hl := ofDigitChars_lt_pow fun d hd => h d (List.mem_cons_of_mem _ hd)
      have hl' := ofDigitChars_lt_pow fun d hd => h' d (List.mem_cons_of_mem _ hd)
      have ha := digit_bounds (h a List.mem_cons_self)
      have hb := digit_bounds (h' b List.mem_cons_self)
      rw [Nat.ofDigitChars_cons, Nat.ofDigitChars_cons, Nat.ofDigitChars_eq_ofDigitChars_zero,
        Nat.ofDigitChars_eq_ofDigitChars_zero (l := l'), hlen'] at hlt
      simp only [Nat.mul_zero, Nat.zero_add, Char.reduceToNat] at hlt
      rw [hlen'] at hl
      rw [List.cons_lt_cons_iff]
      rcases lt_trichotomy a.toNat b.toNat with hab | hab | hab
      · exact Or.inl (UInt32.lt_iff_toNat_lt.mpr hab)
      · have heq : a = b := Char.toNat_inj.mp hab
        subst heq
        refine Or.inr ⟨rfl, ih hlen' (fun d hd => h d (List.mem_cons_of_mem _ hd))
          (fun d hd => h' d (List.mem_cons_of_mem _ hd)) ?_⟩
        omega
      · -- a larger leading digit outweighs everything behind it
        have hmul : 10 ^ l'.length * (b.toNat - 48 + 1) ≤ 10 ^ l'.length * (a.toNat - 48) :=
          Nat.mul_le_mul_left _ (by omega)
        rw [Nat.mul_add] at hmul
        omega

/-- Padded numerals of numbers that fit the width are ordered like the numbers. -/
theorem paddedDigits_lt {width m n : ℕ} (hwidth : 0 < width) (hmn : m < n)
    (hn : n < 10 ^ width) : paddedDigits width m < paddedDigits width n := by
  refine lt_of_ofDigitChars_lt ?_ (fun _ h => isDigit_of_mem_paddedDigits h)
    (fun _ h => isDigit_of_mem_paddedDigits h) ?_
  · rw [length_paddedDigits hwidth (hmn.trans hn), length_paddedDigits hwidth hn]
  · simpa using hmn

/-! ### Numbered names -/

theorem toList_toString (n : ℕ) : (toString n).toList = Nat.toDigits 10 n := by
  rw [Nat.toString_eq_repr, Nat.repr, String.toList_ofList]

theorem toString_injective {i j : ℕ} (h : toString i = toString j) : i = j := by
  have hdigits := congrArg String.toList h
  rw [toList_toString, toList_toString] at hdigits
  rw [← Nat.ofDigitChars_ten_toDigits (n := i), hdigits, Nat.ofDigitChars_ten_toDigits]

/-- What stands after the last separator is determined. -/
theorem append_cons_inj_right {α : Type} {l l' s t : List α} {c : α} (hs : c ∉ s) (ht : c ∉ t)
    (h : l ++ c :: s = l' ++ c :: t) : l = l' ∧ s = t := by
  rcases List.append_eq_append_iff.mp h with ⟨m, rfl, hm⟩ | ⟨m, rfl, hm⟩
  · cases m with
    | nil => exact ⟨(List.append_nil l).symm, by simpa using hm⟩
    | cons a m =>
      rw [List.cons_append, List.cons.injEq] at hm
      refine absurd ?_ hs
      rw [hm.2]
      simp
  · cases m with
    | nil => exact ⟨List.append_nil l', by simpa using hm.symm⟩
    | cons a m =>
      rw [List.cons_append, List.cons.injEq] at hm
      refine absurd ?_ ht
      rw [hm.2]
      simp

/-- A name with a number behind its last underscore determines both. -/
theorem numbered_inj {a b : String} {i j : ℕ}
    (h : a ++ "_" ++ toString i = b ++ "_" ++ toString j) : a = b ∧ i = j := by
  have hdigit : ∀ n : ℕ, '_' ∉ Nat.toDigits 10 n := by
    intro n hmem
    have := Nat.isDigit_of_mem_toDigits (by decide) (by decide) hmem
    revert this
    decide
  have hlist := congrArg String.toList h
  simp only [String.toList_append, toList_toString, List.append_assoc] at hlist
  obtain ⟨hab, hij⟩ := append_cons_inj_right (hdigit i) (hdigit j) hlist
  refine ⟨String.toList_inj.mp hab, toString_injective ?_⟩
  rw [← String.toList_inj, toList_toString, toList_toString, hij]

end NpuArc
