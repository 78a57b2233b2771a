import Mathlib.Algebra.Order.Field.Basic
import Mathlib.Algebra.Order.Floor.Ring
import Mathlib.Algebra.Order.Floor.Div
import Mathlib.Tactic.Linarith
import Mathlib.Tactic.Positivity
import Mathlib.Tactic.Ring

/-!
# Two-stage pipelines

Tiles are transferred and computed one after the other. The first tile is not overlapped, and
each further tile takes the longer of its two stages. Costs are rounded down to whole cycles, and
work is divided into tiles with rounding up.
-/

namespace NpuArc

section Pipelined

variable {α : Type} [Field α] [LinearOrder α] [IsStrictOrderedRing α]

/-- The time of tiles with a stage of computation and one of transfer. -/
def pipelined (tiles : ℕ) (compute transfer : α) : α :=
  transfer + compute + ((tiles - 1 : ℕ) : α) * max compute transfer

variable {tiles tiles' : ℕ} {c c' d d' : α}

theorem pipelined_nonneg (hc : 0 ≤ c) (hd : 0 ≤ d) : 0 ≤ pipelined tiles c d := by
  have hmax : 0 ≤ max c d := le_max_of_le_left hc
  unfold pipelined
  positivity

/-- More and longer tiles take more time. -/
theorem pipelined_mono (htiles : tiles ≤ tiles') (hcc : c ≤ c') (hdd : d ≤ d') (hc : 0 ≤ c) :
    pipelined tiles c d ≤ pipelined tiles' c' d' := by
  have hmax : max c d ≤ max c' d' := max_le_max hcc hdd
  have hmax0 : 0 ≤ max c d := le_max_of_le_left hc
  have hcast : ((tiles - 1 : ℕ) : α) ≤ ((tiles' - 1 : ℕ) : α) := by
    exact_mod_cast Nat.sub_le_sub_right htiles 1
  have hsteady : ((tiles - 1 : ℕ) : α) * max c d ≤ ((tiles' - 1 : ℕ) : α) * max c' d' :=
    mul_le_mul hcast hmax hmax0 (Nat.cast_nonneg _)
  unfold pipelined
  linarith

/-- The time is that of twice the stages, halved. -/
theorem pipelined_two_mul : pipelined tiles (2 * c) (2 * d) = 2 * pipelined tiles c d := by
  unfold pipelined
  rw [← mul_max_of_nonneg c d zero_le_two]
  ring

/-- The computation of all tiles and the transfer of the first one are not overlapped. -/
theorem mul_compute_add_le_pipelined (hpos : 0 < tiles) :
    (tiles : α) * c + d ≤ pipelined tiles c d := by
  have hcast : 0 ≤ ((tiles - 1 : ℕ) : α) := Nat.cast_nonneg _
  have hsteady : ((tiles - 1 : ℕ) : α) * c ≤ ((tiles - 1 : ℕ) : α) * max c d :=
    mul_le_mul_of_nonneg_left (le_max_left c d) hcast
  rw [Nat.cast_pred hpos] at hsteady
  unfold pipelined
  rw [Nat.cast_pred hpos]
  linarith

/-- The transfer of all tiles and the computation of the last one are not overlapped. -/
theorem mul_transfer_add_le_pipelined (hpos : 0 < tiles) :
    (tiles : α) * d + c ≤ pipelined tiles c d := by
  have hcast : 0 ≤ ((tiles - 1 : ℕ) : α) := Nat.cast_nonneg _
  have hsteady : ((tiles - 1 : ℕ) : α) * d ≤ ((tiles - 1 : ℕ) : α) * max c d :=
    mul_le_mul_of_nonneg_left (le_max_right c d) hcast
  rw [Nat.cast_pred hpos] at hsteady
  unfold pipelined
  rw [Nat.cast_pred hpos]
  linarith

/-- The time is the longer of two: all computation with one transfer, and all transfers with one
computation. -/
theorem pipelined_eq_max (hpos : 0 < tiles) :
    pipelined tiles c d = max ((tiles : α) * c + d) (c + (tiles : α) * d) := by
  have hcast : 0 ≤ ((tiles - 1 : ℕ) : α) := Nat.cast_nonneg _
  have hsteady := mul_max_of_nonneg c d hcast
  rw [Nat.cast_pred hpos] at hsteady
  unfold pipelined
  rw [Nat.cast_pred hpos, hsteady, ← max_add_add_left]
  exact congrArg₂ max (by ring) (by ring)

end Pipelined

section Rounding

variable {α : Type} [Field α] [LinearOrder α] [IsStrictOrderedRing α] [FloorRing α] {x y : α}
  {n : ℤ}

/-- A number that is one more than another one is at least its rounding up. -/
theorem ceil_le_floor_of_add_one_le (h : x + 1 ≤ y) : ⌈x⌉ ≤ ⌊y⌋ := by
  have hfloor : ⌊x⌋ + 1 ≤ ⌊y⌋ := by
    rw [← Int.floor_add_one]
    exact Int.floor_mono h
  exact (Int.ceil_le_floor_add_one x).trans hfloor

/-- Twice a number, rounded down, is at most one more than twice the number rounded down. -/
theorem floor_two_mul_le (h : y ≤ 2 * x) : ⌊y⌋ ≤ 2 * ⌊x⌋ + 1 := by
  have hlt : y < ((2 * ⌊x⌋ + 1 + 1 : ℤ) : α) := by
    have hx := Int.lt_floor_add_one x
    push_cast
    linarith
  exact Int.lt_add_one_iff.mp (Int.floor_lt.mpr hlt)

/-- The greater of a whole number and another one, rounded down. -/
theorem floor_max_intCast : ⌊max (n : α) x⌋ = max n ⌊x⌋ := by
  rcases le_total (n : α) x with h | h
  · rw [max_eq_right h, max_eq_right (Int.le_floor.mpr h)]
  · rw [max_eq_left h, Int.floor_intCast, max_eq_left]
    exact Int.floor_le_iff.mpr (by linarith)

/-- The time of tiles whose computation takes whole cycles. -/
theorem floor_pipelined {tiles c : ℕ} {d : α} (hpos : 0 < tiles) :
    ⌊pipelined tiles (c : α) d⌋ =
      max ((tiles : ℤ) * c + ⌊d⌋) ((c : ℤ) + ⌊(tiles : α) * d⌋) := by
  have hfirst : ⌊(tiles : α) * c + d⌋ = (tiles : ℤ) * c + ⌊d⌋ := by
    rw [← Nat.cast_mul, Int.floor_natCast_add, Nat.cast_mul]
  have hsecond : ⌊(c : α) + tiles * d⌋ = (c : ℤ) + ⌊(tiles : α) * d⌋ := by
    rw [Int.floor_natCast_add]
  rw [pipelined_eq_max hpos, Int.floor_mono.map_max, hfirst, hsecond]

/-- The computation of all tiles, in whole cycles. -/
theorem mul_le_floor_pipelined {tiles c : ℕ} {d : α} (hpos : 0 < tiles) (hd : 0 ≤ d) :
    (c : ℤ) * tiles ≤ ⌊pipelined tiles (c : α) d⌋ := by
  have hle := mul_compute_add_le_pipelined hpos (c := (c : α)) (d := d)
  refine Int.le_floor.mpr ?_
  push_cast
  linarith

end Rounding

section Tiles

variable {a b c m n : ℕ}

/-- The tiles cover the work. -/
theorem le_mul_ceilDiv (hb : 0 < b) : a ≤ b * (a ⌈/⌉ b) := le_smul_ceilDiv hb

theorem ceilDiv_pos (ha : 0 < a) (hb : 0 < b) : 0 < a ⌈/⌉ b := by
  by_contra h
  have hzero : a ⌈/⌉ b = 0 := by omega
  have hle := le_mul_ceilDiv hb (a := a)
  rw [hzero, Nat.mul_zero] at hle
  omega

theorem ceilDiv_mono (hb : 0 < b) (h : a ≤ c) : a ⌈/⌉ b ≤ c ⌈/⌉ b :=
  (ceilDiv_le_iff_le_mul hb).mpr (h.trans (le_mul_ceilDiv hb))

/-- All tiles but the last one are full. -/
theorem mul_ceilDiv_sub_one_lt (ha : 0 < a) (hb : 0 < b) : b * (a ⌈/⌉ b - 1) < a := by
  by_contra h
  have hle : a ⌈/⌉ b ≤ a ⌈/⌉ b - 1 := (ceilDiv_le_iff_le_mul hb).mpr (by omega)
  have hpos := ceilDiv_pos ha hb
  omega

/-- The rows of the last tile. -/
theorem lastTile_pos (ha : 0 < a) (hb : 0 < b) : 0 < a - (a ⌈/⌉ b - 1) * b := by
  have hlt := mul_ceilDiv_sub_one_lt ha hb
  rw [Nat.mul_comm] at hlt
  omega

theorem lastTile_le (hb : 0 < b) : a - (a ⌈/⌉ b - 1) * b ≤ b := by
  have hle := le_mul_ceilDiv hb (a := a)
  rcases Nat.eq_zero_or_pos (a ⌈/⌉ b) with hzero | hpos
  · rw [hzero, Nat.mul_zero] at hle
    omega
  · have hmul : (a ⌈/⌉ b - 1) * b + b = b * (a ⌈/⌉ b) := by
      rw [← Nat.succ_mul, Nat.succ_eq_add_one, Nat.sub_add_cancel hpos, Nat.mul_comm]
    omega

/-- Work in two directions is covered by the tiles of both. -/
theorem mul_le_mul_ceilDiv_mul (hb : 0 < b) (hn : 0 < n) :
    a * m ≤ b * n * ((a ⌈/⌉ b) * (m ⌈/⌉ n)) :=
  calc a * m ≤ (b * (a ⌈/⌉ b)) * (n * (m ⌈/⌉ n)) :=
        Nat.mul_le_mul (le_mul_ceilDiv hb) (le_mul_ceilDiv hn)
    _ = b * n * ((a ⌈/⌉ b) * (m ⌈/⌉ n)) := by ring

end Tiles

end NpuArc
