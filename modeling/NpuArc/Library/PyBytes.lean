import NpuArc.Library.PySlice

/-!
# Growing arrays

An array that is a list is written by slices in the manner of Python, where the data replaces
the slice whatever its length. Data is split into parts of one length, the last of which may be
shorter.
-/

namespace NpuArc

variable {α : Type}

/-- Data in place of a slice. -/
def replaceSlice (l : List α) (a b : ℤ) (data : List α) : List α :=
  let lo := sliceBound l.length a
  l.take lo ++ data ++ l.drop (max lo (sliceBound l.length b))

/-- The parts of a list that have a length, and what remains. -/
def splitEvery (n : ℕ) (l : List α) : List (List α) :=
  (List.range ((l.length + n - 1) / n)).map fun i => (l.drop (i * n)).take n

/-- The lengths of the parts of a list. -/
def partSizes (n total : ℕ) : List ℕ :=
  (List.range ((total + n - 1) / n)).map fun i => min n (total - i * n)

section Slices

variable {l data : List α} {a : ℤ}

/-- A slice that begins inside the list is replaced from its place on. -/
theorem replaceSlice_eq (h0 : 0 ≤ a) (hlo : a ≤ l.length) :
    replaceSlice l a (a + data.length) data =
      l.take a.toNat ++ data ++ l.drop (a.toNat + data.length) := by
  have ha : sliceBound l.length a = a.toNat := by
    rw [sliceBound_of_nonneg h0]
    omega
  have hb : sliceBound l.length (a + data.length) = min (a.toNat + data.length) l.length := by
    rw [sliceBound_of_nonneg (by omega)]
    omega
  rw [replaceSlice, ha, hb]
  congr 1
  rcases Nat.le_total (a.toNat + data.length) l.length with h | h
  · congr 1
    omega
  · rw [List.drop_of_length_le (by omega), List.drop_of_length_le h]

theorem length_replaceSlice (h0 : 0 ≤ a) (hlo : a ≤ l.length) :
    (replaceSlice l a (a + data.length) data).length =
      max l.length (a.toNat + data.length) := by
  rw [replaceSlice_eq h0 hlo, List.length_append, List.length_append, List.length_take,
    List.length_drop]
  omega

/-- A write inside the list keeps its length. -/
theorem length_replaceSlice_of_le (h0 : 0 ≤ a) (hend : a + data.length ≤ l.length) :
    (replaceSlice l a (a + data.length) data).length = l.length := by
  rw [length_replaceSlice h0 (by omega)]
  omega

/-- A write keeps the elements before its first one. -/
theorem getElem?_replaceSlice_of_lt (h0 : 0 ≤ a) (hlo : a ≤ l.length) {i : ℕ} (hi : (i : ℤ) < a) :
    (replaceSlice l a (a + data.length) data)[i]? = l[i]? := by
  rw [replaceSlice_eq h0 hlo, List.append_assoc,
    List.getElem?_append_left (by rw [List.length_take]; omega),
    List.getElem?_take_of_lt (by omega)]

/-- The elements after a write. -/
theorem getElem?_replaceSlice (h0 : 0 ≤ a) (hend : a + data.length ≤ l.length) (i : ℕ) :
    (replaceSlice l a (a + data.length) data)[i]? =
      if a ≤ i ∧ i < a + data.length then data[i - a.toNat]? else l[i]? := by
  rw [replaceSlice_eq h0 (by omega)]
  have htake : (l.take a.toNat).length = a.toNat := by
    rw [List.length_take]
    omega
  split_ifs with h
  · rw [List.getElem?_append_left (by rw [List.length_append]; omega),
      List.getElem?_append_right (by omega), htake]
  · rcases Nat.lt_or_ge i a.toNat with hi | hi
    · rw [List.append_assoc, List.getElem?_append_left (by omega), List.getElem?_take_of_lt hi]
    · rw [List.getElem?_append_right (by rw [List.length_append]; omega), List.length_append,
        htake, List.getElem?_drop]
      congr 1
      omega

/-- The elements of a slice that begins inside the list. -/
theorem getElem?_sliceList {n : ℕ} (h0 : 0 ≤ a) (k : ℕ) :
    (sliceList l a (a + n))[k]? = if k < n then l[a.toNat + k]? else none := by
  rw [sliceList, sliceBound_of_nonneg h0, sliceBound_of_nonneg (by omega)]
  rw [List.getElem?_take, List.getElem?_drop]
  split_ifs with h1 h2 h2
  · congr 1
    omega
  · omega
  · rw [List.getElem?_eq_none (by omega)]
  · rfl

theorem replaceSlice_nil (h0 : 0 ≤ a) (hlo : a ≤ l.length) : replaceSlice l a a [] = l := by
  have h : replaceSlice l a (a + ([] : List α).length) [] = l := by
    rw [replaceSlice_eq h0 hlo, List.append_nil, List.length_nil, Nat.add_zero,
      List.take_append_drop]
  rwa [List.length_nil, Nat.cast_zero, Int.add_zero] at h

/-- Consecutive writes are one write. -/
theorem replaceSlice_append {more : List α} (h0 : 0 ≤ a)
    (hend : a + (data ++ more).length ≤ l.length) :
    replaceSlice (replaceSlice l a (a + data.length) data) (a + data.length)
        (a + data.length + more.length) more =
      replaceSlice l a (a + (data ++ more).length) (data ++ more) := by
  rw [List.length_append] at hend ⊢
  have hkept : (replaceSlice l a (a + data.length) data).length = l.length :=
    length_replaceSlice_of_le h0 (by omega)
  have hfront : (l.take a.toNat ++ data).length = a.toNat + data.length := by
    rw [List.length_append, List.length_take]
    omega
  have hnat : (a + data.length).toNat = a.toNat + data.length := by omega
  rw [replaceSlice_eq (by omega) (by omega), hnat, replaceSlice_eq h0 (by omega),
    ← List.length_append, replaceSlice_eq h0 (by omega), List.length_append, ← Nat.add_assoc,
    List.take_left' hfront, List.drop_append, hfront, List.drop_drop,
    List.drop_of_length_le (by omega), List.nil_append, Nat.add_sub_cancel_left,
    List.append_assoc (l.take a.toNat)]

/-- The first elements of a slice. -/
theorem take_sliceList {k n : ℕ} (h0 : 0 ≤ a) (hk : k ≤ n) :
    (sliceList l a (a + n)).take k = sliceList l a (a + k) := by
  rw [sliceList, sliceList, sliceBound_of_nonneg h0, sliceBound_of_nonneg (by omega),
    sliceBound_of_nonneg (by omega), List.take_take]
  rcases Nat.le_total (a.toNat + k) l.length with h | h
  · congr 1
    omega
  · rw [List.take_of_length_le (by rw [List.length_drop]; omega),
      List.take_of_length_le (by rw [List.length_drop]; omega)]

/-- A write is read back. -/
theorem sliceList_replaceSlice (h0 : 0 ≤ a) (hend : a + data.length ≤ l.length) :
    sliceList (replaceSlice l a (a + data.length) data) a (a + data.length) = data := by
  have hfront : (l.take a.toNat).length = a.toNat := by
    rw [List.length_take]
    omega
  rw [sliceList, length_replaceSlice_of_le h0 hend, sliceBound_of_nonneg h0,
    sliceBound_of_nonneg (by omega), replaceSlice_eq h0 (by omega), List.append_assoc,
    List.drop_left' (by omega), List.take_left' (by omega)]

/-- A write of the elements that are there changes nothing. -/
theorem replaceSlice_sliceList (h0 : 0 ≤ a) (hend : a + data.length ≤ l.length)
    (h : sliceList l a (a + data.length) = data) :
    replaceSlice l a (a + data.length) data = l := by
  have hdata : (l.drop a.toNat).take data.length = data := by
    rw [sliceList, sliceBound_of_nonneg h0, sliceBound_of_nonneg (by omega)] at h
    rwa [show min a.toNat l.length = a.toNat by omega,
      show min (a + data.length).toNat l.length - a.toNat = data.length by omega] at h
  have hjoin := List.take_append_drop data.length (l.drop a.toNat)
  rw [hdata, List.drop_drop] at hjoin
  rw [replaceSlice_eq h0 (by omega), List.append_assoc, hjoin, List.take_append_drop]

/-- A slice with consecutive bounds is cut into two. -/
theorem sliceList_append {b c : ℤ} (h0 : 0 ≤ a) (hab : a ≤ b) (hbc : b ≤ c)
    (hc : c ≤ l.length) : sliceList l a b ++ sliceList l b c = sliceList l a c := by
  rw [sliceList, sliceList, sliceList, sliceBound_of_nonneg h0, sliceBound_of_nonneg (by omega),
    sliceBound_of_nonneg (by omega), Nat.min_eq_left (by omega), Nat.min_eq_left (by omega),
    Nat.min_eq_left (by omega),
    show c.toNat - a.toNat = b.toNat - a.toNat + (c.toNat - b.toNat) by omega, List.take_add,
    List.drop_drop, show a.toNat + (b.toNat - a.toNat) = b.toNat by omega]

theorem length_sliceList {b : ℤ} (h0 : 0 ≤ a) (hab : a ≤ b) (hb : b ≤ l.length) :
    (sliceList l a b).length = (b - a).toNat := by
  rw [sliceList, sliceBound_of_nonneg h0, sliceBound_of_nonneg (by omega), List.length_take,
    List.length_drop]
  omega

end Slices

section Parts

variable {n : ℕ}

/-- What follows the first part has one part less. -/
theorem parts_succ (hn : 0 < n) {total : ℕ} (hpos : 0 < total) :
    (total + n - 1) / n = (total - n + n - 1) / n + 1 := by
  rcases Nat.le_total total n with h | h
  · rw [Nat.div_eq_of_lt (show total - n + n - 1 < n by omega),
      Nat.div_eq_of_lt_le (k := 1) (by omega) (by omega)]
  · rw [show total + n - 1 = total - n + n - 1 + n by omega, Nat.add_div_right _ hn]

theorem splitEvery_nil (hn : 0 < n) : splitEvery n ([] : List α) = [] := by
  rw [splitEvery, List.length_nil, Nat.div_eq_of_lt (by omega)]
  rfl

/-- The first part, and the parts of what follows it. -/
theorem splitEvery_of_ne_nil (hn : 0 < n) {l : List α} (hne : l ≠ []) :
    splitEvery n l = l.take n :: splitEvery n (l.drop n) := by
  have hcount := parts_succ hn (List.length_pos_iff.mpr hne)
  rw [splitEvery, hcount, List.range_succ_eq_map, List.map_cons, List.map_map, Nat.zero_mul,
    List.drop_zero, splitEvery, List.length_drop]
  congr 1
  refine List.map_congr_left fun i _ => ?_
  rw [Function.comp, List.drop_drop, Nat.succ_mul, Nat.add_comm]

/-- Data is handled part by part. -/
theorem splitEvery_induction (hn : 0 < n) {motive : List α → Prop} (nil : motive [])
    (part : ∀ l, l ≠ [] → motive (l.drop n) → motive l) : ∀ l, motive l := by
  intro l
  induction hlen : l.length using Nat.strong_induction_on generalizing l with
  | _ k ih =>
    by_cases hne : l = []
    · rw [hne]
      exact nil
    · have hpos := List.length_pos_iff.mpr hne
      refine part l hne (ih (l.drop n).length ?_ _ rfl)
      rw [List.length_drop]
      omega

theorem partSizes_zero (hn : 0 < n) : partSizes n 0 = [] := by
  rw [partSizes, Nat.div_eq_of_lt (by omega)]
  rfl

/-- The first length, and the lengths of what follows. -/
theorem partSizes_of_pos (hn : 0 < n) {total : ℕ} (hpos : 0 < total) :
    partSizes n total = min n total :: partSizes n (total - n) := by
  rw [partSizes, parts_succ hn hpos, List.range_succ_eq_map, List.map_cons, List.map_map,
    Nat.zero_mul, Nat.sub_zero, partSizes]
  congr 1
  refine List.map_congr_left fun i _ => ?_
  rw [Function.comp, Nat.succ_mul, Nat.sub_sub, Nat.add_comm (i * n)]

/-- A total is handled part by part. -/
theorem partSizes_induction (hn : 0 < n) {motive : ℕ → Prop} (zero : motive 0)
    (part : ∀ total, 0 < total → motive (total - n) → motive total) : ∀ total, motive total := by
  intro total
  induction total using Nat.strong_induction_on with
  | _ total ih =>
    rcases Nat.eq_zero_or_pos total with rfl | hpos
    · exact zero
    · exact part total hpos (ih (total - n) (by omega))

theorem map_length_splitEvery (hn : 0 < n) (l : List α) :
    (splitEvery n l).map List.length = partSizes n l.length := by
  induction l using splitEvery_induction hn with
  | nil => rw [splitEvery_nil hn, List.length_nil, partSizes_zero hn, List.map_nil]
  | part l hne ih =>
    rw [splitEvery_of_ne_nil hn hne, partSizes_of_pos hn (List.length_pos_iff.mpr hne),
      List.map_cons, ih, List.length_take, List.length_drop]

end Parts

section Words

/-- Words of four bytes, each with its highest byte first. -/
def packWords (ws : List ℕ) : List UInt8 := ws.flatMap fun w => (toBytes 4 w).reverse

/-- The words of four bytes in a byte string. -/
def unpackWords (bs : List UInt8) : List ℕ := (splitEvery 4 bs).map fun b => ofBytes b.reverse

theorem unpackWords_packWords {ws : List ℕ} (h : ∀ w ∈ ws, w < 2 ^ 32) :
    unpackWords (packWords ws) = ws := by
  induction ws with
  | nil => exact congrArg (List.map _) (splitEvery_nil (by decide))
  | cons w ws ih =>
    have hlen : (toBytes 4 w).reverse.length = 4 := by
      rw [List.length_reverse, length_toBytes]
    have hpack : packWords (w :: ws) = (toBytes 4 w).reverse ++ packWords ws := List.flatMap_cons
    have hne : packWords (w :: ws) ≠ [] := by
      intro hnil
      rw [hnil] at hpack
      rw [List.append_eq_nil_iff.mp hpack.symm |>.1] at hlen
      cases hlen
    have hw : ofBytes (toBytes 4 w) = w := ofBytes_toBytes (h w List.mem_cons_self)
    rw [unpackWords, splitEvery_of_ne_nil (by decide) hne, hpack, List.take_left' hlen,
      List.drop_left' hlen, List.map_cons, List.reverse_reverse, hw]
    congr 1
    exact ih fun v hv => h v (List.mem_cons_of_mem w hv)

end Words

end NpuArc
