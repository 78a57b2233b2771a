import Mathlib.Data.Fin.Tuple.Basic
import Mathlib.Data.List.OfFn
import Mathlib.Tactic.Common

/-!
# Arrays of two dimensions

An array is stored in row-major order: its elements are given in this order, and an array of some
shape is made of as many elements as the shape has.
-/

namespace NpuArc

/-- An array of two dimensions. -/
abbrev NdArray (rows cols : ℕ) (α : Type) := Fin rows → Fin cols → α

namespace NdArray

variable {rows cols : ℕ} {α : Type}

/-- The elements of an array in row-major order. -/
def flatten (m : NdArray rows cols α) : List α :=
  List.ofFn fun i : Fin (rows * cols) => m i.divNat i.modNat

/-- The array of some shape with elements in row-major order, if there are as many. -/
def reshape [Inhabited α] (rows cols : ℕ) (flat : List α) : Option (NdArray rows cols α) :=
  if flat.length = rows * cols then some fun i j => flat.getD (i * cols + j) default else none

@[simp] theorem length_flatten (m : NdArray rows cols α) : m.flatten.length = rows * cols :=
  List.length_ofFn

theorem index_lt (i : Fin rows) (j : Fin cols) : i.val * cols + j < rows * cols := by
  calc i.val * cols + j < i.val * cols + cols := Nat.add_lt_add_left j.isLt _
    _ = (i.val + 1) * cols := (Nat.succ_mul _ _).symm
    _ ≤ rows * cols := Nat.mul_le_mul_right cols i.isLt

theorem getElem?_flatten (m : NdArray rows cols α) (i : Fin rows) (j : Fin cols) :
    m.flatten[i.val * cols + j]? = some (m i j) := by
  have hdiv : (⟨i.val * cols + j, index_lt i j⟩ : Fin (rows * cols)).divNat = i := by
    apply Fin.ext
    change (i.val * cols + j) / cols = i
    rw [Nat.add_comm, Nat.add_mul_div_right _ _ j.pos, Nat.div_eq_of_lt j.isLt, Nat.zero_add]
  have hmod : (⟨i.val * cols + j, index_lt i j⟩ : Fin (rows * cols)).modNat = j := by
    apply Fin.ext
    exact Nat.mul_add_mod_of_lt j.isLt
  rw [flatten, List.getElem?_ofFn, dif_pos (index_lt i j), hdiv, hmod]

/-- The elements of an array give it back. -/
theorem reshape_flatten [Inhabited α] (m : NdArray rows cols α) :
    reshape rows cols m.flatten = some m := by
  rw [reshape, if_pos (length_flatten m)]
  congr 1
  funext i j
  rw [List.getD_eq_getElem?_getD, getElem?_flatten, Option.getD_some]

/-- Only elements of an array are found in its list. -/
theorem forall_mem_flatten {m : NdArray rows cols α} {P : α → Prop} (h : ∀ i j, P (m i j)) :
    ∀ x ∈ m.flatten, P x := by
  intro x hx
  obtain ⟨i, rfl⟩ := List.mem_ofFn.mp hx
  exact h i.divNat i.modNat

end NdArray

end NpuArc
