import Mathlib.Data.Set.Finite.Basic
import Mathlib.Order.WellFounded
import Mathlib.Tactic.Common
import Mathlib.Order.MinMax

/-!
# Dominance and maxima

Each criterion compares two elements. An element dominates another when it is at least as good on
every criterion and better on one. Dominance is a strict order, so in a finite list whatever is
dominated is dominated by an element that nothing in the list dominates. For a single linear order
these are the maxima of the list.
-/

namespace NpuArc

namespace Dominance

variable {ι α : Type*} {le : ι → α → α → Prop} {criteria : List ι} {a b c : α}

/-- At least as good on every criterion and better on one, where `le i a b` says that `b` is
at least as good as `a` on the criterion `i`. -/
def Dominates (le : ι → α → α → Prop) (criteria : List ι) (b a : α) : Prop :=
  (∀ i ∈ criteria, le i a b) ∧ ∃ i ∈ criteria, ¬le i b a

theorem Dominates.irrefl : ¬Dominates le criteria a a := by
  rintro ⟨hall, i, hi, hnot⟩
  exact hnot (hall i hi)

theorem Dominates.trans (htrans : ∀ i a b c, le i a b → le i b c → le i a c)
    (hcb : Dominates le criteria c b) (hba : Dominates le criteria b a) :
    Dominates le criteria c a := by
  obtain ⟨hallcb, i, hi, hnot⟩ := hcb
  refine ⟨fun j hj => htrans j a b c (hba.1 j hj) (hallcb j hj), i, hi, fun hca => ?_⟩
  exact hnot (htrans i c a b hca (hba.1 i hi))

/-- The elements of a list that nothing in the list is above. -/
def Undominated (above : α → α → Prop) (l : List α) (a : α) : Prop :=
  a ∈ l ∧ ∀ b ∈ l, ¬above b a

/-- In a finite list, whatever has something above it has an undominated element above it. -/
theorem exists_undominated_above {above : α → α → Prop} {l : List α}
    (hirrefl : ∀ a ∈ l, ¬above a a)
    (htrans : ∀ a ∈ l, ∀ b ∈ l, ∀ c ∈ l, above c b → above b a → above c a)
    (ha : a ∈ l) (hb : b ∈ l) (hba : above b a) :
    ∃ c, Undominated above l c ∧ above c a := by
  let r : {x // x ∈ l} → {x // x ∈ l} → Prop := fun x y => above x.1 y.1
  have : IsTrans _ r := ⟨fun x y z hxy hyz => htrans z.1 z.2 y.1 y.2 x.1 x.2 hxy hyz⟩
  have : Std.Irrefl r := ⟨fun x => hirrefl x.1 x.2⟩
  have : Finite {x // x ∈ l} := List.finite_toSet l
  have hwf : WellFounded r := Finite.wellFounded_of_trans_of_irrefl r
  obtain ⟨c, hca, hmin⟩ := hwf.has_min {x | above x.1 a} ⟨⟨b, hb⟩, hba⟩
  refine ⟨c.1, ⟨c.2, fun d hd hdc => ?_⟩, hca⟩
  exact hmin ⟨d, hd⟩ (htrans a ha c.1 c.2 d hd hdc hca) hdc

end Dominance

/-! ### Maxima of lists

The greatest element of a list and of a first value, taken from the left. It is bounded by what
bounds the value and all elements. -/

variable {α : Type*} [LinearOrder α] {l l' : List α} {x y b : α}

/-- A maximum is bounded if everything is. -/
theorem foldl_max_le_iff : l.foldl max x ≤ b ↔ x ≤ b ∧ ∀ y ∈ l, y ≤ b := by
  induction l generalizing x with
  | nil => simp
  | cons y l ih => rw [List.foldl_cons, ih, max_le_iff, List.forall_mem_cons, and_assoc]

theorem le_foldl_max : x ≤ l.foldl max x := (foldl_max_le_iff.mp le_rfl).1

theorem le_foldl_max_of_mem (h : y ∈ l) : y ≤ l.foldl max x := (foldl_max_le_iff.mp le_rfl).2 y h

/-- A maximum depends on the elements only. -/
theorem foldl_max_congr (h : ∀ y, y ∈ l ↔ y ∈ l') : l.foldl max x = l'.foldl max x := by
  refine eq_of_forall_ge_iff fun b => ?_
  simp only [foldl_max_le_iff, h]

end NpuArc
