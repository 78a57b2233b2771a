import Mathlib

/-!
# Unions of half-open intervals

The points that a list of half-open intervals of integers covers. Merging two intervals that
overlap or touch covers the same points, and an interval that ends before all the others
start adds its whole length. Counting each point as often as it is covered adds up the
lengths.
-/

namespace NpuArc

namespace Intervals

variable {l : List (ℤ × ℤ)} {t : ℤ}

/-- The points that some interval covers. -/
noncomputable def cover : List (ℤ × ℤ) → Finset ℤ
  | [] => ∅
  | e :: l => Finset.Ico e.1 e.2 ∪ cover l

@[simp] theorem cover_nil : cover [] = ∅ := rfl

@[simp] theorem cover_cons (e : ℤ × ℤ) (l : List (ℤ × ℤ)) :
    cover (e :: l) = Finset.Ico e.1 e.2 ∪ cover l := rfl

theorem mem_cover : t ∈ cover l ↔ ∃ e ∈ l, e.1 ≤ t ∧ t < e.2 := by
  induction l with
  | nil => simp
  | cons e l ih => simp [ih]

theorem cover_perm {l' : List (ℤ × ℤ)} (h : l.Perm l') : cover l = cover l' := by
  ext t
  simp only [mem_cover, h.mem_iff]

/-- Two intervals of which the second starts inside or at the end of the first cover the same
points as one. -/
theorem cover_merge {start curStart curEnd stop : ℤ} (hstart : curStart ≤ start)
    (hinside : start ≤ curEnd) :
    cover ((curStart, curEnd) :: (start, stop) :: l) = cover ((curStart, max curEnd stop) :: l) := by
  simp only [cover_cons, ← Finset.union_assoc]
  congr 1
  ext t
  simp only [Finset.mem_union, Finset.mem_Ico]
  omega

/-- An interval that ends before the others start adds its length. -/
theorem card_cover_cons {start stop : ℤ} (h : ∀ e ∈ l, stop ≤ e.1) :
    (cover ((start, stop) :: l)).card = (stop - start).toNat + (cover l).card := by
  rw [cover_cons, Finset.card_union_of_disjoint, Int.card_Ico]
  rw [Finset.disjoint_left]
  intro t ht hcover
  obtain ⟨e, he, hle, _⟩ := mem_cover.mp hcover
  have hstop := h e he
  simp only [Finset.mem_Ico] at ht
  omega

/-! ### Disjoint intervals -/

/-- Intervals of which each ends before the next one starts. -/
def Ordered (l : List (ℤ × ℤ)) : Prop := l.Pairwise fun a b => a.2 ≤ b.1

/-- Intervals in order cover as many points as their lengths add up to. -/
theorem card_cover_of_ordered (hordered : Ordered l) (hle : ∀ e ∈ l, e.1 ≤ e.2) :
    ((cover l).card : ℤ) = (l.map fun e => e.2 - e.1).sum := by
  induction l with
  | nil => rfl
  | cons e l ih =>
    obtain ⟨hfirst, hrest⟩ := List.pairwise_cons.mp hordered
    rw [List.forall_mem_cons] at hle
    rw [card_cover_cons hfirst, List.map_cons, List.sum_cons, ← ih hrest hle.2]
    have := hle.1
    omega

/-! ### Counting with multiplicity -/

/-- Counting at each point the elements that hold there counts for each element the points at
which it holds. -/
theorem sum_countP {α : Type} (l : List α) (points : Finset ℤ) (p : α → ℤ → Bool) :
    ∑ t ∈ points, l.countP (fun a => p a t) =
      (l.map fun a => (points.filter fun t => p a t = true).card).sum := by
  induction l with
  | nil => simp
  | cons a l ih =>
    simp only [List.countP_cons, List.map_cons, List.sum_cons, Finset.sum_add_distrib, ih,
      Finset.card_filter]
    exact Nat.add_comm _ _

/-- A count adds up to one for each point that counts, and what it has beyond one. -/
theorem sum_eq_beyond_add_card (points : Finset ℤ) (n : ℤ → ℕ) :
    ∑ t ∈ points, n t = ∑ t ∈ points, (n t - 1) + (points.filter fun t => 0 < n t).card := by
  rw [Finset.card_filter, ← Finset.sum_add_distrib]
  apply Finset.sum_congr rfl
  intro t _
  split_ifs with hpos
  · omega
  · omega

end Intervals

end NpuArc
