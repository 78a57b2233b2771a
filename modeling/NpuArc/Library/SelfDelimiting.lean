import Mathlib.Tactic.Common

/-!
# Self-delimiting codes

The code of an element is self-delimiting when it can be told from what follows it. Then
the elements of a list can be read off the concatenation of their codes, up to an end mark
that no code starts with.
-/

namespace NpuArc

/-- The codes of valid elements can be told from what follows them. -/
def SelfDelimiting {α β : Type*} (valid : α → Prop) (code : α → List β) : Prop :=
  ∀ a b, valid a → valid b → ∀ s t, code a ++ s = code b ++ t → a = b ∧ s = t

namespace SelfDelimiting

variable {α β : Type*} {valid : α → Prop} {code : α → List β} {l l' : List α}

/-- The elements of a list can be read off the concatenation of their codes. -/
theorem flatMap_injective (h : SelfDelimiting valid code) (hne : ∀ a, code a ≠ [])
    (hl : ∀ a ∈ l, valid a) (hl' : ∀ a ∈ l', valid a)
    (heq : l.flatMap code = l'.flatMap code) : l = l' := by
  induction l generalizing l' with
  | nil =>
    cases l' with
    | nil => rfl
    | cons b l' =>
      rw [List.flatMap_nil, List.flatMap_cons] at heq
      exact absurd (List.append_eq_nil_iff.mp heq.symm).1 (hne b)
  | cons a l ih =>
    rw [List.forall_mem_cons] at hl
    cases l' with
    | nil =>
      rw [List.flatMap_nil, List.flatMap_cons] at heq
      exact absurd (List.append_eq_nil_iff.mp heq).1 (hne a)
    | cons b l' =>
      rw [List.forall_mem_cons] at hl'
      rw [List.flatMap_cons, List.flatMap_cons] at heq
      obtain ⟨rfl, hrest⟩ := h a b hl.1 hl'.1 _ _ heq
      rw [ih hl.2 hl'.2 hrest]

/-- The concatenation of codes up to an end mark is self-delimiting itself. -/
theorem flatMap_terminated (h : SelfDelimiting valid code) {mark : β}
    (hmark : ∀ a s t, valid a → code a ++ s ≠ mark :: t) :
    SelfDelimiting (fun l : List α => ∀ a ∈ l, valid a) fun l => l.flatMap code ++ [mark] := by
  intro l
  induction l with
  | nil =>
    intro l' hl hl' s t heq
    cases l' with
    | nil => simpa using heq
    | cons b l' =>
      rw [List.forall_mem_cons] at hl'
      simp only [List.flatMap_nil, List.nil_append, List.flatMap_cons, List.append_assoc] at heq
      exact absurd heq.symm (hmark b _ _ hl'.1)
  | cons a l ih =>
    intro l' hl hl' s t heq
    rw [List.forall_mem_cons] at hl
    cases l' with
    | nil =>
      simp only [List.flatMap_nil, List.nil_append, List.flatMap_cons, List.append_assoc] at heq
      exact absurd heq (hmark a _ _ hl.1)
    | cons b l' =>
      rw [List.forall_mem_cons] at hl'
      simp only [List.flatMap_cons, List.append_assoc] at heq
      obtain ⟨rfl, hrest⟩ := h a b hl.1 hl'.1 _ _ heq
      rw [← List.append_assoc, ← List.append_assoc] at hrest
      obtain ⟨rfl, hst⟩ := ih l' hl.2 hl'.2 s t hrest
      exact ⟨rfl, hst⟩

end SelfDelimiting

end NpuArc
