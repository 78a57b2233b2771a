import Mathlib.Algebra.Order.Floor.Div
import Mathlib.Tactic.Common
import Mathlib.Tactic.Linarith

/-!
# The closest pair of factors

Going down from the square root of a number, rounded up, the first divisor and its cofactor are the
two factors of the number that lie closest to each other.
-/

namespace NpuArc

variable {n c limit a b : ℕ}

/-- The larger factor of a pair is the smallest one possible if no larger divisor lies up to the
rounded square root. -/
theorem max_cofactor_le (hn : 0 < n) (hroot : n ≤ limit * limit)
    (hceil : (limit - 1) * (limit - 1) < n) (hdvd : n % c = 0) (hle : c ≤ limit)
    (hnone : ∀ d, c < d → d ≤ limit → n % d ≠ 0) (hab : a * b = n) (horder : a ≤ b) :
    max (n / c) c ≤ b := by
  have hprod : n / c * c = n := Nat.div_mul_cancel (Nat.dvd_of_mod_eq_zero hdvd)
  have ha : 0 < a := Nat.pos_of_ne_zero fun h => by simp [h] at hab; omega
  have halimit : a ≤ limit := by
    by_contra hlt
    have hsquare : limit * limit < a * b := Nat.mul_lt_mul'' (by omega) (by omega)
    omega
  have hac : a ≤ c := by
    by_contra hlt
    exact hnone a (by omega) halimit (by rw [← hab, Nat.mul_mod_right])
  have hblimit : limit ≤ b := by
    by_contra hlt
    have hsquare : a * b ≤ (limit - 1) * (limit - 1) := Nat.mul_le_mul (by omega) (by omega)
    omega
  refine max_le ?_ (hle.trans hblimit)
  have hcofactor : a * (n / c) ≤ a * b := by
    rw [hab]
    calc a * (n / c) ≤ c * (n / c) := Nat.mul_le_mul_right _ hac
      _ = n := by rw [Nat.mul_comm, hprod]
  exact Nat.le_of_mul_le_mul_left hcofactor ha

/-- Two ordered pairs of factors with the smaller larger factor lie inside each other. -/
theorem sub_le_sub_of_factors {a' b' : ℕ} (hn : 0 < n) (hab : a * b = n) (hab' : a' * b' = n)
    (hle : b ≤ b') : b - a ≤ b' - a' := by
  have hb : 0 < b := Nat.pos_of_ne_zero fun h => by simp [h] at hab; omega
  have ha : a' ≤ a := by
    have hprod : a' * b ≤ a * b := by
      rw [hab, ← hab']
      exact Nat.mul_le_mul_left a' hle
    exact Nat.le_of_mul_le_mul_right hprod hb
  omega

theorem min_mul_max_cofactor (hdvd : n % c = 0) : min (n / c) c * max (n / c) c = n := by
  rw [min_mul_max]
  exact Nat.div_mul_cancel (Nat.dvd_of_mod_eq_zero hdvd)

/-- The first divisor below the rounded square root and its cofactor lie closest to each other. -/
theorem closest_cofactor (hn : 0 < n) (hroot : n ≤ limit * limit)
    (hceil : (limit - 1) * (limit - 1) < n) (hdvd : n % c = 0) (hle : c ≤ limit)
    (hnone : ∀ d, c < d → d ≤ limit → n % d ≠ 0) (hab : a * b = n) (horder : a ≤ b) :
    max (n / c) c - min (n / c) c ≤ b - a :=
  sub_le_sub_of_factors hn (min_mul_max_cofactor hdvd) hab
    (max_cofactor_le hn hroot hceil hdvd hle hnone hab horder)

end NpuArc
