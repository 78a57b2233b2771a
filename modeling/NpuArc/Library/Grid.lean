import NpuArc.Library.Pipeline
import Mathlib.Algebra.BigOperators.Intervals
import Mathlib.Algebra.BigOperators.Ring.Finset
import Mathlib.Algebra.Order.BigOperators.Group.Finset

/-!
# Grids of tiles

Work in a direction is divided into tiles of a size, the last of which may be smaller. The tiles of
three directions are numbered in row-major order.
-/

namespace NpuArc

/-- The part of the work in a tile. -/
def tilePart (work size i : ℕ) : ℕ :=
  if i = work ⌈/⌉ size - 1 then work - (work ⌈/⌉ size - 1) * size else size

section TilePart

variable {work work' size i : ℕ}

theorem tilePart_le (work i : ℕ) (hsize : 0 < size) : tilePart work size i ≤ size := by
  unfold tilePart
  split_ifs
  · exact lastTile_le hsize
  · exact le_rfl

/-- More work leaves no smaller part in a tile. -/
theorem tilePart_mono (hsize : 0 < size) (h : work ≤ work') (hi : i < work ⌈/⌉ size) :
    tilePart work size i ≤ tilePart work' size i := by
  have htiles := ceilDiv_mono hsize h
  by_cases hlast' : i = work' ⌈/⌉ size - 1
  · have hlast : i = work ⌈/⌉ size - 1 := by omega
    unfold tilePart
    rw [if_pos hlast, if_pos hlast', ← hlast, ← hlast']
    omega
  · rw [tilePart.eq_1 work', if_neg hlast']
    exact tilePart_le work i hsize

/-- The parts of all tiles are the work. -/
theorem sum_tilePart (hwork : 0 < work) (hsize : 0 < size) :
    ∑ i ∈ Finset.range (work ⌈/⌉ size), tilePart work size i = work := by
  have hpos := ceilDiv_pos hwork hsize
  have hlast := lastTile_pos hwork hsize
  obtain ⟨t, ht⟩ := Nat.exists_eq_add_of_lt hpos
  rw [Nat.zero_add] at ht
  have hfull : ∀ i ∈ Finset.range t, tilePart work size i = size := by
    intro i hi
    have hlt := Finset.mem_range.mp hi
    rw [tilePart, if_neg (by omega)]
  rw [ht, Nat.add_sub_cancel] at hlast
  rw [ht, Finset.sum_range_succ, Finset.sum_congr rfl hfull, Finset.sum_const, Finset.card_range,
    tilePart, ht, Nat.add_sub_cancel, if_pos rfl, smul_eq_mul]
  omega

/-- The parts of the tiles of two directions are the work in both. -/
theorem sum_tilePart_mul (hwork : 0 < work) (hsize : 0 < size) (hwork' : 0 < work')
    {size' : ℕ} (hsize' : 0 < size') (c : ℕ) :
    ∑ i ∈ Finset.range (work ⌈/⌉ size), ∑ j ∈ Finset.range (work' ⌈/⌉ size'),
      tilePart work size i * tilePart work' size' j * c = work * work' * c := by
  have hrow : ∀ i, ∑ j ∈ Finset.range (work' ⌈/⌉ size'),
      tilePart work size i * tilePart work' size' j * c = tilePart work size i * (work' * c) := by
    intro i
    rw [← Finset.sum_mul, ← Finset.mul_sum, sum_tilePart hwork' hsize', Nat.mul_assoc]
  rw [Finset.sum_congr rfl fun i _ => hrow i, ← Finset.sum_mul, sum_tilePart hwork hsize,
    Nat.mul_assoc]

end TilePart

section Index

variable {a b c a' b' c' i j l : ℕ}

/-- The number of a tile with its coordinates. -/
def gridIndex (b c i j l : ℕ) : ℕ := (i * b + j) * c + l

theorem gridIndex_lt (hi : i < a) (hj : j < b) (hl : l < c) :
    gridIndex b c i j l < a * b * c := by
  have hrow : i * b + j + 1 ≤ a * b := by
    calc i * b + j + 1 ≤ i * b + b := by omega
      _ = (i + 1) * b := (Nat.succ_mul i b).symm
      _ ≤ a * b := Nat.mul_le_mul_right b hi
  calc gridIndex b c i j l < (i * b + j) * c + c := by unfold gridIndex; omega
    _ = (i * b + j + 1) * c := (Nat.succ_mul _ c).symm
    _ ≤ a * b * c := Nat.mul_le_mul_right c hrow

theorem gridIndex_mod (hl : l < c) : gridIndex b c i j l % c = l := by
  rw [gridIndex, Nat.mul_add_mod', Nat.mod_eq_of_lt hl]

theorem gridIndex_div (hl : l < c) : gridIndex b c i j l / c = i * b + j := by
  rw [gridIndex, Nat.add_comm, Nat.add_mul_div_right _ _ (by omega), Nat.div_eq_of_lt hl,
    Nat.zero_add]

theorem gridIndex_div_mod (hj : j < b) (hl : l < c) : gridIndex b c i j l / c % b = j := by
  rw [gridIndex_div hl, Nat.mul_add_mod', Nat.mod_eq_of_lt hj]

theorem gridIndex_div_mul (hj : j < b) (hl : l < c) : gridIndex b c i j l / (c * b) = i := by
  rw [← Nat.div_div_eq_div_mul, gridIndex_div hl, Nat.add_comm,
    Nat.add_mul_div_right _ _ (by omega), Nat.div_eq_of_lt hj, Nat.zero_add]

/-- A number is that of its coordinates. -/
theorem gridIndex_coordinates (n : ℕ) :
    gridIndex b c (n / (c * b)) (n / c % b) (n % c) = n := by
  rw [gridIndex, ← Nat.div_div_eq_div_mul, Nat.mul_comm (n / c / b) b, Nat.div_add_mod,
    Nat.mul_comm (n / c) c, Nat.div_add_mod]

/-- A tile has no smaller number in a larger grid. -/
theorem gridIndex_mono (hb : b ≤ b') (hc : c ≤ c') :
    gridIndex b c i j l ≤ gridIndex b' c' i j l := by
  unfold gridIndex
  gcongr

/-- The sum over the numbers of a grid with two directions. -/
theorem sum_range_mul (a c : ℕ) (f : ℕ → ℕ → ℕ) :
    ∑ n ∈ Finset.range (a * c), f (n / c) (n % c) =
      ∑ i ∈ Finset.range a, ∑ l ∈ Finset.range c, f i l := by
  induction a with
  | zero => rw [Nat.zero_mul, Finset.range_zero, Finset.sum_empty, Finset.sum_empty]
  | succ a ih =>
    rw [Nat.succ_mul, Finset.sum_range_add, ih, Finset.sum_range_succ]
    refine congrArg _ (Finset.sum_congr rfl fun l hl => ?_)
    have hlt := Finset.mem_range.mp hl
    rw [Nat.mul_add_mod', Nat.mod_eq_of_lt hlt, Nat.add_comm (a * c),
      Nat.add_mul_div_right _ _ (by omega), Nat.div_eq_of_lt hlt, Nat.zero_add]

/-- The sum over the numbers of a grid with three directions. -/
theorem sum_grid (a b c : ℕ) (f : ℕ → ℕ → ℕ → ℕ) :
    ∑ n ∈ Finset.range (a * b * c), f (n / (c * b)) (n / c % b) (n % c) =
      ∑ i ∈ Finset.range a, ∑ j ∈ Finset.range b, ∑ l ∈ Finset.range c, f i j l := by
  have hrows := sum_range_mul (a * b) c fun r l => f (r / b) (r % b) l
  have hcolumns := sum_range_mul a b fun i j => ∑ l ∈ Finset.range c, f i j l
  rw [← hcolumns, ← hrows]
  refine Finset.sum_congr rfl fun n _ => ?_
  rw [Nat.div_div_eq_div_mul]

/-- The tiles from a number on, in a grid and in a larger one with no less in each tile. -/
theorem sum_grid_le {f f' : ℕ → ℕ → ℕ → ℕ} (start : ℕ) (ha : a ≤ a') (hb : b ≤ b')
    (hc : c ≤ c') (hf : ∀ i < a, ∀ j < b, ∀ l < c, f i j l ≤ f' i j l) :
    ∑ n ∈ Finset.Ico start (a * b * c), f (n / (c * b)) (n / c % b) (n % c) ≤
      ∑ n ∈ Finset.Ico start (a' * b' * c'), f' (n / (c' * b')) (n / c' % b') (n % c') := by
  -- A tile is sent to the tile with the same coordinates, whose number is not smaller.
  let place : ℕ → ℕ := fun n => gridIndex b' c' (n / (c * b)) (n / c % b) (n % c)
  have hbound : ∀ n ∈ Finset.Ico start (a * b * c),
      n / (c * b) < a ∧ n / c % b < b ∧ n % c < c := by
    intro n hn
    have hlt := (Finset.mem_Ico.mp hn).2
    have hpos : 0 < a * b * c := by omega
    have hbpos : 0 < b := Nat.pos_of_mul_pos_left (Nat.pos_of_mul_pos_right hpos)
    have hcpos : 0 < c := Nat.pos_of_mul_pos_left hpos
    refine ⟨?_, Nat.mod_lt _ hbpos, Nat.mod_lt _ hcpos⟩
    rw [Nat.div_lt_iff_lt_mul (Nat.mul_pos hcpos hbpos)]
    calc n < a * b * c := hlt
      _ = a * (c * b) := by rw [Nat.mul_assoc, Nat.mul_comm b c]
  have hinj : Set.InjOn place (Finset.Ico start (a * b * c)) := by
    intro x hx y hy hxy
    obtain ⟨-, hxj, hxl⟩ := hbound x hx
    obtain ⟨-, hyj, hyl⟩ := hbound y hy
    have hxj' := hxj.trans_le hb
    have hxl' := hxl.trans_le hc
    have hyj' := hyj.trans_le hb
    have hyl' := hyl.trans_le hc
    have hi : x / (c * b) = y / (c * b) := by
      have h : place x / (c' * b') = place y / (c' * b') := by rw [hxy]
      rwa [gridIndex_div_mul hxj' hxl', gridIndex_div_mul hyj' hyl'] at h
    have hj : x / c % b = y / c % b := by
      have h : place x / c' % b' = place y / c' % b' := by rw [hxy]
      rwa [gridIndex_div_mod hxj' hxl', gridIndex_div_mod hyj' hyl'] at h
    have hl : x % c = y % c := by
      have h : place x % c' = place y % c' := by rw [hxy]
      rwa [gridIndex_mod hxl', gridIndex_mod hyl'] at h
    rw [← gridIndex_coordinates (b := b) (c := c) x, hi, hj, hl, gridIndex_coordinates]
  have hsub : (Finset.Ico start (a * b * c)).image place ⊆
      Finset.Ico start (a' * b' * c') := by
    intro x hx
    obtain ⟨n, hn, rfl⟩ := Finset.mem_image.mp hx
    obtain ⟨hi, hj, hl⟩ := hbound n hn
    have hle : n ≤ place n := by
      calc n = gridIndex b c (n / (c * b)) (n / c % b) (n % c) := (gridIndex_coordinates n).symm
        _ ≤ place n := gridIndex_mono hb hc
    exact Finset.mem_Ico.mpr ⟨(Finset.mem_Ico.mp hn).1.trans hle,
      gridIndex_lt (hi.trans_le ha) (hj.trans_le hb) (hl.trans_le hc)⟩
  refine le_trans ?_ (Finset.sum_le_sum_of_subset hsub)
  rw [Finset.sum_image hinj]
  refine Finset.sum_le_sum fun n hn => ?_
  obtain ⟨hi, hj, hl⟩ := hbound n hn
  have hj' := hj.trans_le hb
  have hl' := hl.trans_le hc
  rw [gridIndex_div_mul hj' hl', gridIndex_div_mod hj' hl', gridIndex_mod hl']
  exact hf _ hi _ hj _ hl

end Index

end NpuArc
