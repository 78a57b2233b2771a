import Mathlib.Algebra.Order.Ring.Int
import Mathlib.Data.Nat.Bitwise
import Mathlib.Tactic.Common

/-!
# Bit fields

A word is joined from fields that do not overlap, and a field is cut out of a word by a shift
and a mask. On naturals both are arithmetic in a mixed base.
-/

namespace NpuArc

/-- Bits that do not overlap are joined by addition. -/
theorem or_eq_add {i x b : ℕ} (hx : x % 2 ^ i = 0) (hb : b < 2 ^ i) : x ||| b = x + b := by
  obtain ⟨a, rfl⟩ := Nat.dvd_of_mod_eq_zero hx
  exact (Nat.two_pow_add_eq_or_of_lt hb a).symm

/-- A mask keeps the lowest bits. -/
theorem and_mask (x i : ℕ) : x &&& (2 ^ i - 1) = x % 2 ^ i := Nat.and_two_pow_sub_one_eq_mod x i

/-- A field is cut out by a shift and a mask. -/
theorem shiftRight_and_mask (x s i : ℕ) : x >>> s &&& (2 ^ i - 1) = x / 2 ^ s % 2 ^ i := by
  rw [and_mask, Nat.shiftRight_eq_div_pow]

/-- A field written behind others is shifted out again. -/
theorem shiftLeft_or_shiftRight {y k : ℕ} (x : ℕ) (hy : y < 2 ^ k) : (x <<< k ||| y) >>> k = x := by
  rw [Nat.shiftLeft_eq, Nat.mul_comm, ← Nat.two_pow_add_eq_or_of_lt hy, Nat.shiftRight_eq_div_pow,
    Nat.mul_add_div (Nat.two_pow_pos k), Nat.div_eq_of_lt hy, Nat.add_zero]

/-- A field written behind others is read by its mask. -/
theorem shiftLeft_or_and_mask {y k : ℕ} (x : ℕ) (hy : y < 2 ^ k) :
    (x <<< k ||| y) &&& (2 ^ k - 1) = y := by
  rw [and_mask, Nat.shiftLeft_eq, Nat.mul_comm, ← Nat.two_pow_add_eq_or_of_lt hy,
    Nat.mul_add_mod, Nat.mod_eq_of_lt hy]

/-- Three fields behind a number are each read at their place. -/
theorem read_threeFields {i j k a b c : ℕ} (x : ℕ) (ha : a < 2 ^ i) (hb : b < 2 ^ j)
    (hc : c < 2 ^ k) {w : ℕ} (hw : w = x <<< (i + j + k) ||| a <<< (j + k) ||| b <<< k ||| c) :
    w >>> (i + j + k) = x ∧ w >>> (j + k) &&& (2 ^ i - 1) = a ∧ w >>> k &&& (2 ^ j - 1) = b ∧
      w &&& (2 ^ k - 1) = c := by
  have hnested : w = ((x <<< i ||| a) <<< j ||| b) <<< k ||| c := by
    rw [hw, Nat.shiftLeft_or_distrib, Nat.shiftLeft_or_distrib, Nat.shiftLeft_or_distrib,
      ← Nat.shiftLeft_add, ← Nat.shiftLeft_add, ← Nat.shiftLeft_add, Nat.add_assoc]
  have hk : w >>> k = (x <<< i ||| a) <<< j ||| b := by rw [hnested, shiftLeft_or_shiftRight _ hc]
  have hjk : w >>> (j + k) = x <<< i ||| a := by
    rw [Nat.add_comm, Nat.shiftRight_add, hk, shiftLeft_or_shiftRight _ hb]
  refine ⟨?_, ?_, ?_, ?_⟩
  · rw [Nat.add_assoc, Nat.add_comm, Nat.shiftRight_add, hjk, shiftLeft_or_shiftRight _ ha]
  · rw [hjk, shiftLeft_or_and_mask _ ha]
  · rw [hk, shiftLeft_or_and_mask _ hb]
  · rw [hnested, shiftLeft_or_and_mask _ hc]

/-- The lowest bits of an integer in two's complement, as a mask gives them. -/
def lowBits (i : ℕ) (x : ℤ) : ℕ := (x % 2 ^ i).toNat

theorem lowBits_lt (i : ℕ) (x : ℤ) : lowBits i x < 2 ^ i := by
  have hpos : (0 : ℤ) < 2 ^ i := pow_pos (by decide) i
  rw [lowBits, Int.toNat_lt (Int.emod_nonneg x hpos.ne')]
  push_cast
  exact Int.emod_lt_of_pos x hpos

/-- A number that fits the mask is kept. -/
theorem lowBits_of_lt {i : ℕ} {x : ℤ} (h0 : 0 ≤ x) (h : x < 2 ^ i) : lowBits i x = x.toNat := by
  rw [lowBits, Int.emod_eq_of_lt h0 h]

/-- A narrower mask keeps fewer of the lowest bits. -/
theorem lowBits_and_mask {i j : ℕ} (hij : i ≤ j) (x : ℤ) :
    lowBits j x &&& (2 ^ i - 1) = lowBits i x := by
  have hdvd : (2 : ℤ) ^ i ∣ 2 ^ j := pow_dvd_pow 2 hij
  obtain ⟨n, hn⟩ := Int.eq_ofNat_of_zero_le (Int.emod_nonneg x (pow_ne_zero j two_ne_zero))
  have hmod : (n : ℤ) % 2 ^ i = ((n % 2 ^ i : ℕ) : ℤ) := by push_cast; rfl
  rw [and_mask, lowBits, lowBits, ← Int.emod_emod_of_dvd x hdvd, hn, Int.toNat_natCast, hmod,
    Int.toNat_natCast]

end NpuArc
