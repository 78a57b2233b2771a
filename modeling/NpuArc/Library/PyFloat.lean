import Mathlib.Algebra.Order.Field.Rat
import Mathlib.Order.WithBot
import Mathlib.Tactic.Common

/-!
# Floats with infinities and a NaN

A float is an extended rational number or not a number. Every comparison with NaN is
false, and the other floats are linearly ordered between the two infinities.
-/

namespace NpuArc

/-- The rational numbers with both infinities. -/
abbrev ExtRat := WithBot (WithTop ℚ)

/-- A float: an extended rational number or NaN. -/
inductive PyFloat
  | nan
  | num (x : ExtRat)
  deriving DecidableEq

namespace PyFloat

/-- The float of a rational number. -/
def ofRat (q : ℚ) : PyFloat := .num ((q : WithTop ℚ) : ExtRat)

/-- The float of an integer. -/
def ofInt (n : ℤ) : PyFloat := .ofRat n

def posInf : PyFloat := .num ⊤

def negInf : PyFloat := .num ⊥

/-- Comparison of floats; NaN is below nothing and above nothing. -/
def lt : PyFloat → PyFloat → Bool
  | .num x, .num y => decide (x < y)
  | _, _ => false

/-- Comparison of floats; NaN does not even equal itself. -/
def le : PyFloat → PyFloat → Bool
  | .num x, .num y => decide (x ≤ y)
  | _, _ => false

@[simp] theorem lt_num (x y : ExtRat) : (num x).lt (num y) = decide (x < y) := rfl

@[simp] theorem le_num (x y : ExtRat) : (num x).le (num y) = decide (x ≤ y) := rfl

theorem exists_num {x : PyFloat} (h : x ≠ .nan) : ∃ y, x = .num y := by
  cases x with
  | nan => exact absurd rfl h
  | num y => exact ⟨y, rfl⟩

theorem le_trans {x y z : PyFloat} (hxy : x.le y = true) (hyz : y.le z = true) :
    x.le z = true := by
  cases x with
  | nan => cases hxy
  | num x =>
    cases y with
    | nan => cases hxy
    | num y =>
      cases z with
      | nan => cases hyz
      | num z =>
        rw [le_num, decide_eq_true_iff] at hxy hyz ⊢
        exact hxy.trans hyz

theorem ne_nan_of_le {x y : PyFloat} (h : x.le y = true) : x ≠ .nan ∧ y ≠ .nan := by
  constructor
  · rintro rfl
    cases h
  · rintro rfl
    cases x <;> cases h

/-- Apart from NaN, one of two floats is at most the other. -/
theorem not_le {x y : PyFloat} (hx : x ≠ .nan) (hy : y ≠ .nan) :
    x.le y = false ↔ y.lt x = true := by
  obtain ⟨x, rfl⟩ := exists_num hx
  obtain ⟨y, rfl⟩ := exists_num hy
  rw [le_num, lt_num, decide_eq_false_iff_not, decide_eq_true_iff, lt_iff_not_ge]

end PyFloat

end NpuArc
