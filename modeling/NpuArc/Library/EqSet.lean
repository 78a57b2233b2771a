import Mathlib.Tactic.Common

/-!
# Sets up to a Boolean equality

A set keeps one representative of each class of equal elements, where equality is the
Boolean one of its element type and need not be the identity. Adding an element that is
equal to a present one keeps the present one. The lemmas reduce every operation to
membership.
-/

namespace NpuArc

/-- Elements of which no two are equal. -/
structure EqSet (α : Type*) [BEq α] where
  /-- One representative of each class, the last one added first. -/
  toList : List α
  /-- No two representatives are equal. -/
  distinct : toList.Pairwise fun a b => (a == b) = false

namespace EqSet

variable {α β : Type*} [BEq α] {s t : EqSet α} {a b : α}

instance : Membership α (EqSet α) where
  mem s a := s.toList.contains a = true

instance (s : EqSet α) (a : α) : Decidable (a ∈ s) :=
  inferInstanceAs (Decidable (s.toList.contains a = true))

theorem mem_iff_exists : a ∈ s ↔ ∃ b ∈ s.toList, a == b :=
  List.contains_iff_exists_mem_beq

/-- The set without elements. -/
def empty : EqSet α := ⟨[], List.Pairwise.nil⟩

/-- The elements that pass a test. -/
def filter (p : α → Bool) (s : EqSet α) : EqSet α :=
  ⟨s.toList.filter p, s.distinct.filter p⟩

/-- Remove an element. -/
def erase (s : EqSet α) (a : α) : EqSet α := s.filter fun b => !(a == b)

/-- The elements of one set that are not in another. -/
def sdiff (s t : EqSet α) : EqSet α := s.filter fun a => !decide (a ∈ t)

@[simp] theorem not_mem_empty (a : α) : a ∉ (empty : EqSet α) := by
  rw [mem_iff_exists]
  rintro ⟨b, hb, -⟩
  cases hb

/-- Membership among the elements that pass a test, for a test that does not tell equal
elements apart. -/
theorem mem_filter {p : α → Bool} (hp : ∀ a b, a == b → p a = p b) :
    a ∈ s.filter p ↔ a ∈ s ∧ p a = true := by
  simp only [mem_iff_exists, filter, List.mem_filter]
  constructor
  · rintro ⟨b, ⟨hb, hpb⟩, hab⟩
    exact ⟨⟨b, hb, hab⟩, (hp a b hab).trans hpb⟩
  · rintro ⟨⟨b, hb, hab⟩, hpa⟩
    exact ⟨b, ⟨hb, (hp a b hab).symm.trans hpa⟩, hab⟩

variable [EquivBEq α]

theorem mem_of_mem_toList (h : a ∈ s.toList) : a ∈ s := mem_iff_exists.mpr ⟨a, h, BEq.refl a⟩

/-- Equal elements are members of the same sets. -/
theorem mem_congr (s : EqSet α) (h : a == b) : a ∈ s ↔ b ∈ s := by
  change s.toList.contains a = true ↔ s.toList.contains b = true
  rw [List.contains_congr h]

/-- Add an element; a set that has an equal one stays as it is. -/
def insert (s : EqSet α) (a : α) : EqSet α :=
  if h : a ∈ s then s
  else ⟨a :: s.toList, by
    refine List.Pairwise.cons (fun b hb => ?_) s.distinct
    by_contra hab
    exact h (mem_iff_exists.mpr ⟨b, hb, (Bool.not_eq_false _).mp hab⟩)⟩

/-- The elements of a list. -/
def ofList (l : List α) : EqSet α := l.foldl insert empty

/-- Membership after adding an element. -/
@[simp] theorem mem_insert : a ∈ s.insert b ↔ a == b ∨ a ∈ s := by
  unfold insert
  split
  · next hb =>
    constructor
    · exact Or.inr
    · rintro (hab | ha)
      · exact (mem_congr s hab).mpr hb
      · exact ha
  · rw [mem_iff_exists, mem_iff_exists]
    simp

/-- Membership after removing an element. -/
@[simp] theorem mem_erase : a ∈ s.erase b ↔ (a == b) = false ∧ a ∈ s := by
  have hcongr : ∀ x y : α, x == y → (!(b == x)) = !(b == y) := by
    intro x y hxy
    rw [BEq.congr_right hxy]
  rw [erase, mem_filter hcongr, and_comm, Bool.not_eq_true', BEq.comm]

@[simp] theorem mem_sdiff : a ∈ s.sdiff t ↔ a ∈ s ∧ a ∉ t := by
  have hcongr : ∀ x y : α, x == y → (!decide (x ∈ t)) = !decide (y ∈ t) := by
    intro x y hxy
    rw [Bool.not_inj_iff, decide_eq_decide]
    exact mem_congr t hxy
  rw [sdiff, mem_filter hcongr, Bool.not_eq_true', decide_eq_false_iff_not]

/-- Adding the elements of a list one after the other. -/
theorem mem_foldl_insert (l : List α) (s : EqSet α) :
    a ∈ l.foldl insert s ↔ a ∈ s ∨ ∃ b ∈ l, a == b := by
  induction l generalizing s with
  | nil => simp
  | cons b l ih =>
    rw [List.foldl_cons, ih, mem_insert]
    simp only [List.mem_cons, exists_eq_or_imp]
    tauto

@[simp] theorem mem_ofList {l : List α} : a ∈ ofList l ↔ ∃ b ∈ l, a == b := by
  rw [ofList, mem_foldl_insert, or_iff_right (not_mem_empty a)]

/-- A set without members has no representatives. -/
theorem toList_eq_nil : s.toList = [] ↔ ∀ a, a ∉ s := by
  constructor
  · intro h a ha
    obtain ⟨b, hb, -⟩ := mem_iff_exists.mp ha
    rw [h] at hb
    cases hb
  · intro h
    exact List.eq_nil_iff_forall_not_mem.mpr fun a ha => h a (mem_of_mem_toList ha)

end EqSet

end NpuArc
