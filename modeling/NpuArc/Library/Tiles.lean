import Mathlib.Algebra.BigOperators.Fin
import Mathlib.Algebra.Order.Ring.Int
import Mathlib.Data.List.Nodup
import Mathlib.Tactic.Common

/-!
# Loops over tiles

A loop walks over the tiles of a direction, the last of which may be shorter. Each position lies
in exactly one tile, so what a loop leaves at a position is what the turn for that tile does
there.
-/

namespace NpuArc

/-- The starts of the tiles of a direction. -/
def tileStarts (n size : ℕ) : List ℕ := (List.range ((n + size - 1) / size)).map (· * size)

/-- A position is in the tile with some start. -/
def InTile (n size start i : ℕ) : Prop := start ≤ i ∧ i < min (start + size) n

instance (n size start i : ℕ) : Decidable (InTile n size start i) :=
  inferInstanceAs (Decidable (_ ∧ _))

section Tile

variable {n size i : ℕ}

/-- The tile of a position is numbered by division. -/
theorem inTile_mul_iff {b : ℕ} (hsize : 0 < size) (hi : i < n) :
    InTile n size (b * size) i ↔ b = i / size := by
  have hdiv := Nat.div_add_mod i size
  have hmod := Nat.mod_lt i hsize
  rw [Nat.mul_comm size] at hdiv
  unfold InTile
  constructor
  · rintro ⟨hstart, hstop⟩
    exact (Nat.div_eq_of_lt_le hstart (by rw [Nat.succ_mul]; omega)).symm
  · rintro rfl
    omega

theorem div_lt_tiles (hsize : 0 < size) (hi : i < n) : i / size < (n + size - 1) / size := by
  rw [Nat.div_lt_iff_lt_mul hsize]
  have hdiv := Nat.div_add_mod (n + size - 1) size
  have hmod := Nat.mod_lt (n + size - 1) hsize
  rw [Nat.mul_comm size] at hdiv
  omega

/-- The tile of a position is one of the loop's. -/
theorem mem_tileStarts (hsize : 0 < size) (hi : i < n) : i / size * size ∈ tileStarts n size :=
  List.mem_map_of_mem (List.mem_range.mpr (div_lt_tiles hsize hi))

theorem nodup_tileStarts (n : ℕ) (hsize : 0 < size) : (tileStarts n size).Nodup :=
  List.nodup_range.map fun _ _ h => Nat.eq_of_mul_eq_mul_right hsize h

/-- A position is in no other tile. -/
theorem inTile_iff {start : ℕ} (hsize : 0 < size) (hi : i < n)
    (hstart : start ∈ tileStarts n size) :
    InTile n size start i ↔ start = i / size * size := by
  obtain ⟨b, -, rfl⟩ := List.mem_map.mp hstart
  rw [inTile_mul_iff hsize hi]
  exact ⟨fun h => by rw [h], fun h => Nat.eq_of_mul_eq_mul_right hsize h⟩

/-- A sum over the positions is the sum over the blocks of the sums in each. -/
theorem sum_inTile {α : Type} [AddCommMonoid α] (hsize : 0 < size) (f : Fin n → α) :
    ∑ b ∈ Finset.range ((n + size - 1) / size),
      ∑ k ∈ Finset.univ.filter fun k : Fin n => InTile n size (b * size) k, f k = ∑ k, f k := by
  have hblock : ∀ b, (Finset.univ.filter fun k : Fin n => InTile n size (b * size) k) =
      Finset.univ.filter fun k : Fin n => k.val / size = b := by
    intro b
    refine Finset.filter_congr fun k _ => ?_
    rw [inTile_mul_iff hsize k.isLt, eq_comm]
  rw [Finset.sum_congr rfl fun b _ => by rw [hblock b]]
  exact Finset.sum_fiberwise_of_maps_to
    (fun k _ => Finset.mem_range.mpr (div_lt_tiles hsize k.isLt)) f

end Tile

section Observation

variable {σ τ β : Type} {step : σ → τ → σ} {l : List τ} (observe : σ → β)

/-- A loop keeps what none of its turns touches. -/
theorem observe_foldl_of_forall (h : ∀ t ∈ l, ∀ x, observe (step x t) = observe x) (x : σ) :
    observe (l.foldl step x) = observe x := by
  induction l generalizing x with
  | nil => rfl
  | cons t l ih =>
    rw [List.foldl_cons, ih fun s hs => h s (List.mem_cons_of_mem t hs), h t List.mem_cons_self]

/-- What only one turn of a loop touches is left as by that turn alone. -/
theorem observe_foldl_of_unique {t : τ} (change : β → β) (hmem : t ∈ l) (hnodup : l.Nodup)
    (hother : ∀ s ∈ l, s ≠ t → ∀ x, observe (step x s) = observe x)
    (hturn : ∀ x, observe (step x t) = change (observe x)) (x : σ) :
    observe (l.foldl step x) = change (observe x) := by
  obtain ⟨l₁, l₂, rfl⟩ := List.append_of_mem hmem
  obtain ⟨-, hnodup₂, hdisjoint⟩ := List.nodup_append.mp hnodup
  have hbefore := observe_foldl_of_forall observe (fun s hs y =>
    hother s (List.mem_append_left _ hs) (hdisjoint s hs t List.mem_cons_self) y) x
  have hafter := fun y => observe_foldl_of_forall observe (fun s hs z =>
    hother s (List.mem_append_right _ (List.mem_cons_of_mem t hs))
      (fun h => (List.nodup_cons.mp hnodup₂).1 (h ▸ hs)) z) y
  rw [List.foldl_append, List.foldl_cons, hafter, hturn, hbefore]

end Observation

/-- A loop that adds terms computes their sum. -/
theorem foldl_add_eq_sum {α τ : Type} [AddCommMonoid α] (f : τ → α) (a : α) (l : List τ) :
    l.foldl (fun acc t => acc + f t) a = a + (l.map f).sum := by
  induction l generalizing a with
  | nil => rw [List.foldl_nil, List.map_nil, List.sum_nil, add_zero]
  | cons t l ih => rw [List.foldl_cons, ih, List.map_cons, List.sum_cons, add_assoc]

/-- The sum over the elements of a list with a property. -/
theorem sum_map_filter_finRange {α : Type} [AddCommMonoid α] {n : ℕ} (p : Fin n → Prop)
    [DecidablePred p] (f : Fin n → α) :
    (((List.finRange n).filter p).map f).sum = ∑ k ∈ Finset.univ.filter p, f k := by
  rw [Finset.sum_filter, Fin.sum_univ_def]
  induction List.finRange n with
  | nil => rfl
  | cons k l ih =>
    by_cases hk : p k
    · rw [List.filter_cons_of_pos (by simpa using hk), List.map_cons, List.sum_cons, ih,
        List.map_cons, List.sum_cons, if_pos hk]
    · rw [List.filter_cons_of_neg (by simpa using hk), ih, List.map_cons, List.sum_cons,
        if_neg hk, zero_add]

end NpuArc
