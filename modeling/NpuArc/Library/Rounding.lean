import Mathlib.Algebra.BigOperators.Group.List.Basic
import Mathlib.Algebra.Order.Floor.Div
import Mathlib.Data.Nat.Cast.Order.Ring
import Mathlib.Tactic.Common
import Mathlib.Algebra.Order.Field.Basic
import Mathlib.Algebra.Order.Floor.Semiring
import Mathlib.Tactic.FieldSimp
import Mathlib.Tactic.Linarith
import Mathlib.Tactic.NormNum

/-!
# Rounding to whole units

An amount that is rounded up to whole units overruns. A sum of rounded amounts overruns by the sum
of what each of them overruns. Work that takes some time is counted in whole cycles of a clock,
rounded down.
-/

namespace NpuArc

/-- How far an amount overruns when it is rounded up to a multiple of a unit. -/
def overrun (unit a : ℕ) : ℕ := (unit - a % unit) % unit

theorem overrun_lt {unit : ℕ} (hunit : 0 < unit) (a : ℕ) : overrun unit a < unit :=
  Nat.mod_lt _ hunit

/-- A multiple of the unit does not overrun. -/
theorem overrun_of_dvd {unit a : ℕ} (h : unit ∣ a) : overrun unit a = 0 := by
  rw [overrun, Nat.mod_eq_zero_of_dvd h, Nat.sub_zero, Nat.mod_self]

/-- With what it overruns, an amount is a multiple of the unit. -/
theorem dvd_add_overrun {unit : ℕ} (hunit : 0 < unit) (a : ℕ) : unit ∣ a + overrun unit a := by
  have hle : a % unit ≤ unit := (Nat.mod_lt a hunit).le
  refine Nat.dvd_of_mod_eq_zero ?_
  rw [overrun, Nat.add_mod_mod, ← Nat.mod_add_mod, Nat.add_sub_cancel' hle, Nat.mod_self]

/-- The least number of units that cover an amount overruns by less than one unit. -/
theorem ceilDiv_eq_iff {unit a n : ℕ} (hunit : 0 < unit) :
    a ⌈/⌉ unit = n ↔ a ≤ n * unit ∧ n * unit < a + unit := by
  have hle : ∀ k, a ⌈/⌉ unit ≤ k ↔ a ≤ k * unit := fun k => by
    rw [ceilDiv_le_iff_le_smul hunit, smul_eq_mul, Nat.mul_comm]
  constructor
  · rintro rfl
    refine ⟨(hle _).mp le_rfl, ?_⟩
    by_contra hnot
    obtain ⟨k, hk⟩ : ∃ k, a ⌈/⌉ unit = k + 1 := by
      refine Nat.exists_eq_succ_of_ne_zero fun hzero => ?_
      rw [hzero] at hnot
      omega
    rw [hk, Nat.succ_mul] at hnot
    have hfewer := (hle k).mpr (by omega)
    omega
  · rintro ⟨hcover, hless⟩
    refine le_antisymm ((hle n).mpr hcover) (Nat.lt_succ_iff.mp ?_)
    have hceil := (hle _).mp le_rfl
    refine Nat.lt_of_mul_lt_mul_right (a := unit) ?_
    rw [Nat.succ_mul]
    omega

/-- The units that cover an amount are the amount and what it overruns. -/
theorem ceilDiv_mul_eq {unit : ℕ} (hunit : 0 < unit) (a : ℕ) :
    a ⌈/⌉ unit * unit = a + overrun unit a := by
  obtain ⟨n, hn⟩ := dvd_add_overrun hunit a
  have hlt := overrun_lt hunit a
  rw [Nat.mul_comm] at hn
  rw [(ceilDiv_eq_iff (n := n) hunit).mpr ⟨by omega, by omega⟩, hn]

/-! ### Whole cycles at different clocks

Work that takes some time is counted in whole cycles of a clock. If the count is the time at the
rate of the clock, rounded down, the time of the count is the same at all rates but for a cycle. If
the count does not depend on the clock, this holds only if it is at most one. -/

variable {α : Type*} [Field α] [LinearOrder α] [IsStrictOrderedRing α]

/-- Two times agree but for a cycle of the slower clock. -/
def SameTime (t t' rate rate' : α) : Prop := |t - t'| ≤ max (1 / rate) (1 / rate')

/-- A time counted in whole cycles is at most a cycle less. -/
theorem floor_cycles [FloorSemiring α] {time rate : α} (htime : 0 ≤ time) (hrate : 0 < rate) :
    time - 1 / rate ≤ ⌊time * rate⌋₊ / rate ∧ (⌊time * rate⌋₊ : α) / rate ≤ time := by
  have hle := Nat.floor_le (mul_nonneg htime hrate.le)
  have hlt := Nat.lt_floor_add_one (time * rate)
  constructor
  · rw [le_div_iff₀ hrate, sub_mul, one_div, inv_mul_cancel₀ hrate.ne']
    linarith
  · rwa [div_le_iff₀ hrate]

/-- A time counted at two clocks is the same but for a cycle. -/
theorem sameTime_floor [FloorSemiring α] {time rate rate' : α} (htime : 0 ≤ time)
    (hrate : 0 < rate) (hrate' : 0 < rate') :
    SameTime ((⌊time * rate⌋₊ : α) / rate) (⌊time * rate'⌋₊ / rate') rate rate' := by
  obtain ⟨hlow, hhigh⟩ := floor_cycles htime hrate
  obtain ⟨hlow', hhigh'⟩ := floor_cycles htime hrate'
  have hleft := le_max_left (1 / rate) (1 / rate')
  have hright := le_max_right (1 / rate) (1 / rate')
  rw [SameTime, abs_le]
  constructor
  · linarith
  · linarith

/-- A count that does not depend on the clock takes the same time at all clocks exactly when it is
at most one. -/
theorem sameTime_fixed_iff (count : ℕ) :
    (∀ rate rate' : α, 0 < rate → 0 < rate' →
      SameTime ((count : α) / rate) (count / rate') rate rate') ↔ count ≤ 1 := by
  constructor
  · intro h
    by_contra hmany
    have htwo : (2 : α) ≤ count := by exact_mod_cast not_le.mp hmany
    -- At a third of the rate, the count takes three times as long.
    have hthird := (abs_le.mp (h (1 / 3) 1 (by norm_num) one_pos)).2
    have hmax : max ((1 : α) / (1 / 3)) (1 / 1) = 3 := by
      rw [one_div_one_div, div_one]
      exact max_eq_left (by norm_num)
    rw [hmax, div_one, div_div_eq_mul_div, div_one] at hthird
    linarith
  · intro hone rate rate' hrate hrate'
    have hpos := one_div_pos.mpr hrate
    have hpos' := one_div_pos.mpr hrate'
    have hleft := le_max_left (1 / rate) (1 / rate')
    have hright := le_max_right (1 / rate) (1 / rate')
    rw [SameTime, abs_le]
    rcases Nat.le_one_iff_eq_zero_or_eq_one.mp hone with rfl | rfl
    · simp only [Nat.cast_zero, zero_div, sub_zero]
      constructor <;> linarith
    · simp only [Nat.cast_one]
      constructor <;> linarith

end NpuArc
