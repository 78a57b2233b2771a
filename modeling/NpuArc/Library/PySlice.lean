import Mathlib.Data.List.OfFn
import Mathlib.Data.Nat.Digits.Defs
import Mathlib.Tactic.Common

/-!
# Slices of fixed-size arrays

An array of fixed size is read and written by slices in the manner of Python: a negative bound
counts from the end, and a bound beyond an end is moved to it. A write needs data of the length
of the slice, or a single element that is written everywhere. Little-endian byte strings give
numbers and are given by them.
-/

namespace NpuArc

/-- An array of fixed size. -/
abbrev FixedArray (n : ℕ) (α : Type) := Fin n → α

/-- The position of a bound of a slice. -/
def sliceBound (n : ℕ) (i : ℤ) : ℕ := if i < 0 then (i + n).toNat else min i.toNat n

theorem sliceBound_le (n : ℕ) (i : ℤ) : sliceBound n i ≤ n := by
  unfold sliceBound
  split_ifs <;> omega

theorem sliceBound_of_nonneg {n : ℕ} {i : ℤ} (h : 0 ≤ i) : sliceBound n i = min i.toNat n := by
  rw [sliceBound, if_neg (by omega)]

/-- The elements of a list from a bound to another one. -/
def sliceList {α : Type} (l : List α) (a b : ℤ) : List α :=
  (l.drop (sliceBound l.length a)).take (sliceBound l.length b - sliceBound l.length a)

theorem mem_of_mem_sliceList {α : Type} {l : List α} {a b : ℤ} {x : α}
    (h : x ∈ sliceList l a b) : x ∈ l :=
  List.mem_of_mem_drop (List.mem_of_mem_take h)

namespace FixedArray

variable {n : ℕ} {α : Type}

/-- The elements from a bound to another one. -/
def slice (m : FixedArray n α) (a b : ℤ) : List α :=
  List.ofFn fun k : Fin (sliceBound n b - sliceBound n a) =>
    m ⟨sliceBound n a + k, by
      have hb := sliceBound_le n b
      omega⟩

/-- Data in place of some elements. -/
def overwrite (m : FixedArray n α) (lo : ℕ) (data : List α) : FixedArray n α :=
  fun i => if lo ≤ i then (data[i.val - lo]?).getD (m i) else m i

/-- Write data to the positions of a slice, if it fits. A single element is repeated. -/
def setSlice (m : FixedArray n α) (a b : ℤ) (data : List α) : Option (FixedArray n α) :=
  let lo := sliceBound n a
  let len := sliceBound n b - lo
  if data.length = len then some (m.overwrite lo data)
  else (if data.length = 1 then data.head? else none).map fun x =>
    m.overwrite lo (List.replicate len x)

theorem length_slice (m : FixedArray n α) (a b : ℤ) :
    (m.slice a b).length = sliceBound n b - sliceBound n a := by
  rw [slice, List.length_ofFn]

theorem getElem?_slice (m : FixedArray n α) {a b : ℤ} {k : ℕ}
    (h : k < sliceBound n b - sliceBound n a) : (m.slice a b)[k]? =
      some (m ⟨sliceBound n a + k, by have hb := sliceBound_le n b; omega⟩) := by
  rw [slice, List.getElem?_ofFn, dif_pos h]

/-- A slice with consecutive bounds is cut into two. -/
theorem slice_append (m : FixedArray n α) {a b c : ℤ} (hab : sliceBound n a ≤ sliceBound n b)
    (hbc : sliceBound n b ≤ sliceBound n c) : m.slice a b ++ m.slice b c = m.slice a c := by
  refine List.ext_getElem? fun k => ?_
  rcases Nat.lt_or_ge k (sliceBound n b - sliceBound n a) with hk | hk
  · rw [List.getElem?_append_left (by rwa [length_slice]), getElem?_slice m hk,
      getElem?_slice m (by omega)]
  · rw [List.getElem?_append_right (by rwa [length_slice]), length_slice]
    rcases Nat.lt_or_ge k (sliceBound n c - sliceBound n a) with hk' | hk'
    · rw [getElem?_slice m (k := k) hk', getElem?_slice m (by omega)]
      congr 2
      rw [Fin.mk.injEq]
      omega
    · rw [List.getElem?_eq_none (by rw [length_slice]; omega),
        List.getElem?_eq_none (by rw [length_slice]; omega)]

theorem setSlice_of_length {m : FixedArray n α} {a b : ℤ} {data : List α}
    (h : data.length = sliceBound n b - sliceBound n a) :
    m.setSlice a b data = some (m.overwrite (sliceBound n a) data) :=
  if_pos h

/-- Data that is neither as long as the slice nor a single element does not fit. -/
theorem setSlice_eq_none {m : FixedArray n α} {a b : ℤ} {data : List α}
    (h : data.length ≠ sliceBound n b - sliceBound n a) (h1 : data.length ≠ 1) :
    m.setSlice a b data = none := by
  rw [setSlice, if_neg h, if_neg h1]
  rfl

/-- A write behind the end has no effect. -/
theorem overwrite_of_end (m : FixedArray n α) {lo : ℕ} (h : n ≤ lo) (data : List α) :
    m.overwrite lo data = m := by
  funext i
  exact if_neg (by omega)

theorem overwrite_nil (m : FixedArray n α) (lo : ℕ) : m.overwrite lo [] = m := by
  funext i
  simp [overwrite]

/-- Two consecutive writes are one. -/
theorem overwrite_append (m : FixedArray n α) (lo : ℕ) (l l' : List α) :
    (m.overwrite lo l).overwrite (lo + l.length) l' = m.overwrite lo (l ++ l') := by
  funext i
  unfold overwrite
  by_cases hlo : lo ≤ i
  · rw [if_pos hlo, if_pos hlo]
    by_cases hi : lo + l.length ≤ i
    · have hl : l[i.val - lo]? = none := List.getElem?_eq_none (by omega)
      rw [if_pos hi, List.getElem?_append_right (by omega), hl, Nat.sub_add_eq, Option.getD_none]
    · have hl : i.val - lo < l.length := by omega
      rw [if_neg hi, List.getElem?_append_left hl, List.getElem?_eq_getElem hl]
  · rw [if_neg (by omega), if_neg hlo, if_neg hlo]

/-- A single element is written to an empty slice at the end. -/
theorem setSlice_of_end {m : FixedArray n α} {a b : ℤ} {data : List α} (h : n ≤ a)
    (h1 : data.length = 1) : m.setSlice a b data = some m := by
  have ha : sliceBound n a = n := by
    rw [sliceBound_of_nonneg (by omega)]
    omega
  have hb := sliceBound_le n b
  obtain ⟨x, rfl⟩ := List.length_eq_one_iff.mp h1
  have hlen : sliceBound n b - sliceBound n a = 0 := by omega
  rw [setSlice, hlen]
  exact congrArg some (m.overwrite_nil _)

/-- A slice beyond the end is empty. -/
theorem slice_of_end (m : FixedArray n α) {a b : ℤ} (h : n ≤ a) : m.slice a b = [] := by
  have ha : sliceBound n a = n := by
    rw [sliceBound_of_nonneg (by omega)]
    omega
  have hb := sliceBound_le n b
  rw [← List.length_eq_zero_iff, length_slice]
  omega

/-- A slice has at most the length that its bounds ask for. -/
theorem length_slice_le (m : FixedArray n α) {a size : ℤ} (ha : 0 ≤ a) (hsize : 0 ≤ size) :
    ((m.slice a (a + size)).length : ℤ) ≤ size := by
  rw [length_slice, sliceBound_of_nonneg ha, sliceBound_of_nonneg (by omega)]
  omega

/-- A slice that ends inside the array has the length that its bounds ask for. -/
theorem length_slice_eq (m : FixedArray n α) {a size : ℤ} (ha : 0 ≤ a) (hsize : 0 ≤ size)
    (hend : a + size ≤ n) : ((m.slice a (a + size)).length : ℤ) = size := by
  rw [length_slice, sliceBound_of_nonneg ha, sliceBound_of_nonneg (by omega)]
  omega

/-- Two slices that follow each other, also beyond the end, are written as one. -/
theorem overwrite_slices {k : ℕ} (m : FixedArray k α) (src : FixedArray n α) {a size c lo : ℤ}
    (ha : 0 ≤ a) (hsize : 0 ≤ size) (hc : a + size ≤ c) (hlo : 0 ≤ lo) :
    (m.overwrite lo.toNat (src.slice a (a + size))).overwrite (lo + size).toNat
      (src.slice (a + size) c) = m.overwrite lo.toNat (src.slice a c) := by
  have hab : sliceBound n a ≤ sliceBound n (a + size) := by
    rw [sliceBound_of_nonneg ha, sliceBound_of_nonneg (by omega)]
    omega
  have hbc : sliceBound n (a + size) ≤ sliceBound n c := by
    rw [sliceBound_of_nonneg (by omega), sliceBound_of_nonneg (by omega)]
    omega
  rw [← src.slice_append hab hbc]
  rcases le_or_gt (a + size) n with hend | hend
  · have hlen := src.length_slice_eq ha hsize hend
    rw [← overwrite_append]
    congr 1
    omega
  · have hempty : src.slice (a + size) c = [] := src.slice_of_end (by omega)
    rw [hempty, overwrite_nil, List.append_nil]

/-- What is written inside the array is read back. -/
theorem slice_overwrite (m : FixedArray n α) {lo k : ℕ} {data : List α}
    (h : lo + data.length ≤ n) {size : ℕ} (hsize : k + size ≤ data.length) :
    (m.overwrite lo data).slice (lo + k : ℕ) ((lo + k : ℕ) + size) = (data.drop k).take size := by
  have ha : sliceBound n (lo + k : ℕ) = lo + k := by
    rw [sliceBound_of_nonneg (by omega)]
    omega
  have hb : sliceBound n ((lo + k : ℕ) + size) = lo + k + size := by
    rw [sliceBound_of_nonneg (by omega)]
    omega
  refine List.ext_getElem? fun i => ?_
  rcases Nat.lt_or_ge i size with hi | hi
  · rw [getElem?_slice _ (by omega), List.getElem?_take_of_lt hi, List.getElem?_drop]
    rw [overwrite]
    dsimp only
    rw [if_pos (by omega), List.getElem?_eq_getElem (by omega), List.getElem?_eq_getElem (by omega),
      Option.getD_some]
    congr 2
    omega
  · rw [List.getElem?_eq_none (by rw [length_slice]; omega),
      List.getElem?_eq_none (by rw [List.length_take, List.length_drop]; omega)]

end FixedArray

/-! ### Little-endian numbers -/

/-- The number of a little-endian byte string. -/
def ofBytes (l : List UInt8) : ℕ := Nat.ofDigits 256 (l.map UInt8.toNat)

/-- The lowest bytes of a number, in little-endian order. -/
def toBytes (width n : ℕ) : List UInt8 :=
  (List.range width).map fun i => UInt8.ofNat (n / 256 ^ i)

theorem toBytes_succ (width n : ℕ) :
    toBytes (width + 1) n = UInt8.ofNat n :: toBytes width (n / 256) := by
  rw [toBytes, List.range_succ_eq_map, List.map_cons, List.map_map, pow_zero, Nat.div_one]
  congr 1
  refine List.map_congr_left fun i _ => ?_
  rw [Function.comp, Nat.pow_succ', Nat.div_div_eq_div_mul]

@[simp] theorem length_toBytes (width n : ℕ) : (toBytes width n).length = width := by
  rw [toBytes, List.length_map, List.length_range]

/-- Zero bytes are the number zero. -/
theorem ofBytes_eq_zero {l : List UInt8} (h : ∀ x ∈ l, x = 0) : ofBytes l = 0 := by
  induction l with
  | nil => rfl
  | cons x l ih =>
    obtain ⟨rfl, hl⟩ := List.forall_mem_cons.mp h
    have hrest := ih hl
    rw [ofBytes] at hrest ⊢
    rw [List.map_cons, Nat.ofDigits_cons, hrest]
    rfl

/-- A number that fits the width is read back. -/
theorem ofBytes_toBytes {width n : ℕ} (h : n < 256 ^ width) : ofBytes (toBytes width n) = n := by
  induction width generalizing n with
  | zero =>
    rw [pow_zero] at h
    obtain rfl : n = 0 := by omega
    rfl
  | succ width ih =>
    rw [pow_succ] at h
    have hdiv := ih (n := n / 256) (by omega)
    rw [ofBytes] at hdiv ⊢
    rw [toBytes_succ, List.map_cons, Nat.ofDigits_cons, hdiv, UInt8.toNat_ofNat']
    omega

end NpuArc
