import NpuArc.Core.Executor
import NpuArc.Core.Quantize
import Mathlib.Algebra.BigOperators.Group.List.Basic
import Mathlib.Algebra.Order.BigOperators.Group.Finset

/-!
# The matrix unit

The matrix unit multiplies activations of eight bits by packed weights of four bits, tile by
tile. Products are added up in 32-bit integers, whose arithmetic wraps around, and the sums are
clipped to the same range afterwards. Two functions scale the sums, one by a number for each
column and one by a number for each column of a block of the reduction.
-/

namespace NpuArc

namespace Core

/-- The matrix unit, with the sizes of its array. -/
structure GoldenMXU where
  H : ℕ := 64
  W : ℕ := 64
  H_pos : 0 < H
  W_pos : 0 < W

/-- The matrix unit with the sizes of the hardware. -/
def GoldenMXU.standard : GoldenMXU where
  H_pos := Nat.succ_pos 63
  W_pos := Nat.succ_pos 63

/-- The elements of an array of some size, with zeros in place of missing ones. -/
def padTo (len : ℕ) (flat : List Int8) : List Int8 :=
  (if flat.length < len then flat ++ List.replicate (len - flat.length) 0 else flat).take len

/-- An operand of some shape. Its elements are as many as the shape has. -/
def operand (rows cols : ℕ) (flat : List Int8) : NdArray rows cols Int8 :=
  (NdArray.reshape rows cols (padTo (rows * cols) flat)).getD fun _ _ => 0

/-- The dot product over some part of the reduction, in 32-bit integers. -/
def dotInt32 {K : ℕ} (a w : Fin K → Int8) (ks : List (Fin K)) : Int32 :=
  ks.foldl (fun acc k => acc + (a k).toInt32 * (w k).toInt32) 0

/-- Clip to the range of 32-bit integers. -/
def clipInt32 (x : Int32) : Int32 :=
  if x < Int32.minValue then Int32.minValue
  else if Int32.maxValue < x then Int32.maxValue
  else x

namespace GoldenMXU

/-- Multiply activations by packed weights, with accumulation in 32-bit integers. -/
def matmulInt32 (mxu : GoldenMXU) (activation : List Int8) (weightPacked : List UInt8)
    (M K N : ℕ) : NdArray M N Int32 :=
  let W := operand K N (unpackInt4 weightPacked)
  let A := operand M K activation
  (tileStarts M mxu.H).foldl
    (fun result mStart => (tileStarts N mxu.W).foldl
      (fun (result : NdArray M N Int32) nStart m n =>
        if InTile M mxu.H mStart m ∧ InTile N mxu.W nStart n then
          clipInt32 (dotInt32 (A m) (W · n) (List.finRange K))
        else result m n)
      result)
    fun _ _ => 0

/-- Multiply with a scale for each column of the result. -/
def matmulInt4PerChannel (mxu : GoldenMXU) (activation : List Int8) (weightPacked : List UInt8)
    {len : ℕ} (weightScales : Fin len → ℚ) (M K N : ℕ) : Except NumericError (NdArray M N ℚ) :=
  let int32Result := mxu.matmulInt32 activation weightPacked M K N
  if h : len = N then .ok fun m n => (int32Result m n).toInt * weightScales (n.cast h.symm)
  else .error (.assertionError s!"Expected scales shape ({N},), got ({len},)")

/-- Multiply block by block of the reduction, with a scale for each column of a block. -/
def matmulInt4PerBlock (mxu : GoldenMXU) (activation : List Int8) (weightPacked : List UInt8)
    {rows cols : ℕ} (blockScales : NdArray rows cols ℚ) (M K N groupSize : ℕ) :
    Except NumericError (NdArray M N ℚ) :=
  let W := operand K N (unpackInt4 weightPacked)
  let A := operand M K activation
  if groupSize = 0 then .error (.zeroDivisionError "integer division or modulo by zero")
  else if h : rows = numBlocks K groupSize ∧ cols = N then
    .ok <| (tileStarts N mxu.W).foldl
      (fun result nStart => (List.finRange (numBlocks K groupSize)).foldl
        (fun (result : NdArray M N ℚ) (b : Fin (numBlocks K groupSize)) m n =>
          if InTile N mxu.W nStart n then
            let ks := (List.finRange K).filter fun k : Fin K =>
              InTile K groupSize (b * groupSize) k
            result m n + (clipInt32 (dotInt32 (A m) (W · n) ks)).toInt *
              blockScales (b.cast h.1.symm) (n.cast h.2.symm)
          else result m n)
        result)
      fun _ _ => 0
  else .error (.assertionError
    s!"Expected block_scales ({numBlocks K groupSize},{N}), got ({rows}, {cols})")

end GoldenMXU

/-! ### Operands -/

theorem length_padTo (len : ℕ) (flat : List Int8) : (padTo len flat).length = len := by
  unfold padTo
  split_ifs
  · rw [List.length_take, List.length_append, List.length_replicate]
    omega
  · rw [List.length_take]
    omega

theorem getD_padTo {len i : ℕ} (flat : List Int8) (hi : i < len) :
    (padTo len flat).getD i 0 = flat.getD i 0 := by
  rw [List.getD_eq_getElem?_getD, List.getD_eq_getElem?_getD, padTo,
    List.getElem?_take_of_lt hi]
  split_ifs with h
  · by_cases hlt : i < flat.length
    · rw [List.getElem?_append_left hlt]
    · rw [List.getElem?_append_right (by omega), List.getElem?_replicate_of_lt (by omega),
        List.getElem?_eq_none (by omega)]
      rfl
  · rfl

/-- An element of an operand is found in row-major order, or is a missing zero. -/
theorem operand_apply {rows cols : ℕ} (flat : List Int8) (i : Fin rows) (j : Fin cols) :
    operand rows cols flat i j = flat.getD (i * cols + j) 0 := by
  rw [operand, NdArray.reshape, if_pos (length_padTo _ flat), Option.getD_some]
  exact getD_padTo flat (NdArray.index_lt i j)

/-- Unpacked weights lie in the range of four bits. -/
theorem isInt4_of_mem_unpackInt4 {packed : List UInt8} {v : Int8}
    (h : v ∈ GoldenMXU.unpackInt4 packed) : IsInt4 v := by
  obtain h | h := mem_interleave h
  · obtain ⟨b, -, rfl⟩ := List.mem_map.mp h
    exact isInt4_signExtend (toNat_lowNibble b ▸ Nat.mod_lt _ (by decide))
  · obtain ⟨b, -, rfl⟩ := List.mem_map.mp h
    exact isInt4_signExtend (toNat_highNibble b ▸ Nat.mod_lt _ (by decide))

theorem isInt4_operand {K N : ℕ} (packed : List UInt8) (k : Fin K) (n : Fin N) :
    IsInt4 (operand K N (GoldenMXU.unpackInt4 packed) k n) := by
  rw [operand_apply, List.getD_eq_getElem?_getD]
  cases h : (GoldenMXU.unpackInt4 packed)[k.val * N + n]? with
  | none => decide
  | some v => exact isInt4_of_mem_unpackInt4 (List.mem_of_getElem? h)

/-! ### Sums of products -/

section Dot

variable {K : ℕ} {a w : Fin K → Int8} {ks : List (Fin K)}

/-- The exact dot product over some part of the reduction. -/
def dotExact (a w : Fin K → Int8) (ks : List (Fin K)) : ℤ :=
  (ks.map fun k => (a k).toInt * (w k).toInt).sum

/-- The sum in 32-bit integers is the exact one, wrapped around. -/
theorem toInt_dotInt32 (a w : Fin K → Int8) (ks : List (Fin K)) :
    (dotInt32 a w ks).toInt = (dotExact a w ks).bmod (2 ^ 32) := by
  have hloop : ∀ acc : Int32,
      (ks.foldl (fun acc k => acc + (a k).toInt32 * (w k).toInt32) acc).toInt =
        (acc.toInt + dotExact a w ks).bmod (2 ^ 32) := by
    induction ks with
    | nil =>
      intro acc
      rw [List.foldl_nil, dotExact, List.map_nil, List.sum_nil, add_zero]
      exact (Int32.toInt_bmod acc).symm
    | cons k ks ih =>
      intro acc
      rw [List.foldl_cons, ih, Int32.toInt_add, Int32.toInt_mul, Int8.toInt_toInt32,
        Int8.toInt_toInt32, Int.add_bmod_bmod, Int.bmod_add_bmod, add_assoc]
      rfl
  rw [dotInt32, hloop, Int32.toInt_zero, zero_add]

/-- Clipping to the range of the type changes nothing. -/
theorem clipInt32_eq (x : Int32) : clipInt32 x = x := by
  rw [clipInt32, if_neg Int32.not_lt_minValue, if_neg (Int32.not_lt.mpr (Int32.le_maxValue x))]

/-- A sum of products is bounded by their number. -/
theorem abs_dotExact_le (a : Fin K → Int8) (ks : List (Fin K)) (hw : ∀ k, IsInt4 (w k)) :
    |dotExact a w ks| ≤ 1024 * ks.length := by
  induction ks with
  | nil => exact le_rfl
  | cons k ks ih =>
    have hproduct : |(a k).toInt * (w k).toInt| ≤ 1024 := by
      have ha : |(a k).toInt| ≤ 128 :=
        abs_le.mpr ⟨(a k).le_toInt, ((a k).toInt_lt).le⟩
      have hw8 : |(w k).toInt| ≤ 8 := by
        have hlow := Int8.le_iff_toInt_le.mp (hw k).1
        have hhigh := Int8.le_iff_toInt_le.mp (hw k).2
        exact abs_le.mpr ⟨hlow, hhigh.trans (by decide)⟩
      calc |(a k).toInt * (w k).toInt| = |(a k).toInt| * |(w k).toInt| := abs_mul _ _
        _ ≤ 128 * 8 := mul_le_mul ha hw8 (abs_nonneg _) (by decide)
    calc |dotExact a w (k :: ks)| = |(a k).toInt * (w k).toInt + dotExact a w ks| := rfl
      _ ≤ |(a k).toInt * (w k).toInt| + |dotExact a w ks| := abs_add_le _ _
      _ ≤ 1024 + 1024 * ks.length := add_le_add hproduct ih
      _ = 1024 * (k :: ks).length := by
        rw [List.length_cons]
        push_cast
        ring

/-- A short sum does not wrap around. -/
theorem toInt_dotInt32_of_lt (hw : ∀ k, IsInt4 (w k)) (hlen : ks.length < 2 ^ 21) :
    (dotInt32 a w ks).toInt = dotExact a w ks := by
  have hbound := abs_le.mp (abs_dotExact_le a ks hw)
  rw [toInt_dotInt32]
  exact Int.bmod_eq_of_le (by omega) (by omega)

end Dot

namespace GoldenMXU

/-! ### Multiplication without scales -/

section Matmul

variable (mxu : GoldenMXU) (activation : List Int8) (weightPacked : List UInt8) (M K N : ℕ)

/-- Each element of the result is the dot product of a row and a column: the tiles of the array
do not matter. -/
theorem matmulInt32_apply (m : Fin M) (n : Fin N) :
    mxu.matmulInt32 activation weightPacked M K N m n =
      dotInt32 (operand M K activation m) (operand K N (unpackInt4 weightPacked) · n)
        (List.finRange K) := by
  refine observe_foldl_of_unique (fun r : NdArray M N Int32 => r m n)
    (fun _ => _) (mem_tileStarts mxu.H_pos m.isLt) (nodup_tileStarts M mxu.H_pos)
    (fun mStart hmStart hne r => ?_) (fun r => ?_) _
  · refine observe_foldl_of_forall (fun r : NdArray M N Int32 => r m n)
      (fun nStart _ r => if_neg fun h => hne ?_) r
    exact (inTile_iff mxu.H_pos m.isLt hmStart).mp h.1
  · have hrow := (inTile_iff mxu.H_pos m.isLt (mem_tileStarts mxu.H_pos m.isLt)).mpr rfl
    refine observe_foldl_of_unique (fun r : NdArray M N Int32 => r m n)
      (fun _ => _) (mem_tileStarts mxu.W_pos n.isLt) (nodup_tileStarts N mxu.W_pos)
      (fun nStart hnStart hne r => if_neg fun h => hne ?_) (fun r => ?_) r
    · exact (inTile_iff mxu.W_pos n.isLt hnStart).mp h.2
    · have hcol := (inTile_iff mxu.W_pos n.isLt (mem_tileStarts mxu.W_pos n.isLt)).mpr rfl
      exact (if_pos ⟨hrow, hcol⟩).trans (clipInt32_eq _)

/-- The exact product of a row of activations and a column of weights. -/
def exactProduct (m : Fin M) (n : Fin N) : ℤ :=
  ∑ k : Fin K, (activation.getD (m * K + k) 0).toInt *
    ((unpackInt4 weightPacked).getD (k * N + n) 0).toInt

theorem exactProduct_eq (m : Fin M) (n : Fin N) :
    exactProduct activation weightPacked M K N m n =
      dotExact (operand M K activation m) (operand K N (unpackInt4 weightPacked) · n)
        (List.finRange K) := by
  rw [exactProduct, Fin.sum_univ_def, dotExact]
  refine congrArg List.sum (List.map_congr_left fun k _ => ?_)
  rw [operand_apply, operand_apply]

end Matmul

/-- A sum wraps around to the closest number in range: it is in range, or it misses by a whole
number of turns. -/
def WrapsToClosest (x : ℤ) : Prop :=
  -2 ^ 31 ≤ x ∧ x < 2 ^ 31 ∨ 2 ^ 31 ≤ x ∧ x % 2 ^ 32 = 2 ^ 31 - 1 ∨
    x < -2 ^ 31 ∧ x % 2 ^ 32 = 2 ^ 31

theorem toInt_saturate (x : ℤ) : (saturate x).toInt = max (-2 ^ 31) (min x (2 ^ 31 - 1)) :=
  Int32.toInt_ofInt_of_le (by omega) (by omega)

theorem bmod_eq_closest_iff (x : ℤ) :
    x.bmod (2 ^ 32) = max (-2 ^ 31) (min x (2 ^ 31 - 1)) ↔ WrapsToClosest x := by
  rw [Int.bmod_def, WrapsToClosest]
  push_cast
  split_ifs <;> omega

/-- The result is the exact product, saturated, exactly where no sum leaves the range by other
than whole turns. -/
theorem matmulInt32_saturates_iff (mxu : GoldenMXU) (activation : List Int8)
    (weightPacked : List UInt8) (M K N : ℕ) :
    (mxu.matmulInt32 activation weightPacked M K N =
        fun m n => saturate (exactProduct activation weightPacked M K N m n)) ↔
      ∀ m n, WrapsToClosest (exactProduct activation weightPacked M K N m n) := by
  have helem : ∀ m n, mxu.matmulInt32 activation weightPacked M K N m n =
      saturate (exactProduct activation weightPacked M K N m n) ↔
        WrapsToClosest (exactProduct activation weightPacked M K N m n) := by
    intro m n
    rw [← bmod_eq_closest_iff, ← toInt_saturate, ← Int32.toInt_inj, matmulInt32_apply,
      toInt_dotInt32, exactProduct_eq]
  constructor
  · intro h m n
    exact (helem m n).mp (by rw [h])
  · intro h
    funext m n
    exact (helem m n).mpr (h m n)

/-- Products of the least activation and the least weight add up to the first number out of
range. -/
theorem exactProduct_replicate {K K' : ℕ} (h : K = K' + K') :
    exactProduct (List.replicate K (-128)) (List.replicate K' 0x88) 1 K 1 0 0 = 1024 * K := by
  have hunpack : unpackInt4 (List.replicate K' 0x88) = List.replicate K (-8) := by
    rw [unpackInt4, List.map_replicate, List.map_replicate, h]
    exact interleave_replicate _ K'
  have hterm : ∀ k : Fin K, ((List.replicate K (-128 : Int8)).getD ((0 : Fin 1) * K + k) 0).toInt *
      ((List.replicate K (-8 : Int8)).getD (k * 1 + (0 : Fin 1)) 0).toInt = 1024 := by
    intro k
    have hrow : (0 : Fin 1).val * K + k < K := by
      rw [Fin.val_zero, Nat.zero_mul, Nat.zero_add]
      exact k.isLt
    have hcol : k.val * 1 + (0 : Fin 1).val < K := by
      rw [Fin.val_zero, Nat.mul_one, Nat.add_zero]
      exact k.isLt
    rw [List.getD_replicate _ hrow, List.getD_replicate _ hcol]
    rfl
  rw [exactProduct, hunpack, Finset.sum_congr rfl fun k _ => hterm k, Finset.sum_const,
    Finset.card_univ, Fintype.card_fin, nsmul_eq_mul, mul_comm]

/-- With a long reduction the sum wraps around before it is clipped. -/
theorem not_matmulInt32_saturates : ¬ ∀ (mxu : GoldenMXU) (activation : List Int8)
    (weightPacked : List UInt8) (M K N : ℕ), 1 ≤ M → 1 ≤ K → 1 ≤ N →
      mxu.matmulInt32 activation weightPacked M K N =
        fun m n => saturate (exactProduct activation weightPacked M K N m n) := by
  intro h
  have hsum := h standard (List.replicate (2 ^ 21) (-128))
    (List.replicate (2 ^ 20) 0x88) 1 (2 ^ 21) 1 le_rfl (Nat.one_le_two_pow) le_rfl
  have hexact := exactProduct_replicate (show 2 ^ 21 = 2 ^ 20 + 2 ^ 20 by decide)
  have helem := congrArg Int32.toInt (congrFun (congrFun hsum 0) 0)
  rw [toInt_saturate, matmulInt32_apply, toInt_dotInt32, ← exactProduct_eq,
    bmod_eq_closest_iff, hexact, WrapsToClosest] at helem
  omega

/-! ### Multiplication with scales -/

section Scales

variable (mxu : GoldenMXU) (activation : List Int8) (weightPacked : List UInt8) {M K N : ℕ}

/-- The part of a dot product in a block of the reduction. -/
def blockDot (groupSize b : ℕ) (m : Fin M) (n : Fin N) : ℤ :=
  dotExact (operand M K activation m) (operand K N (unpackInt4 weightPacked) · n)
    ((List.finRange K).filter fun k : Fin K => InTile K groupSize (b * groupSize) k)

/-- The parts in all blocks are the whole dot product. -/
theorem sum_blockDot {groupSize : ℕ} (hgroup : 0 < groupSize) (m : Fin M) (n : Fin N) :
    ((List.finRange (numBlocks K groupSize)).map fun b : Fin (numBlocks K groupSize) =>
      blockDot activation weightPacked (K := K) groupSize b m n).sum =
        dotExact (operand M K activation m) (operand K N (unpackInt4 weightPacked) · n)
          (List.finRange K) := by
  rw [← Fin.sum_univ_def,
    ← Finset.sum_range (blockDot activation weightPacked (K := K) groupSize · m n)]
  have hblock : ∀ b, blockDot activation weightPacked (K := K) groupSize b m n =
      ∑ k ∈ Finset.univ.filter fun k : Fin K => InTile K groupSize (b * groupSize) k,
        (operand M K activation m k).toInt *
          (operand K N (unpackInt4 weightPacked) k n).toInt :=
    fun b => sum_map_filter_finRange _ _
  rw [Finset.sum_congr rfl fun b _ => hblock b]
  exact (sum_inTile hgroup _).trans (Fin.sum_univ_def _)

/-- The part of a dot product in a block, scaled. -/
def scaledPart {groupSize : ℕ} (blockScales : NdArray (numBlocks K groupSize) N ℚ) (m : Fin M)
    (n : Fin N) (b : Fin (numBlocks K groupSize)) : ℚ :=
  blockDot activation weightPacked (K := K) groupSize b m n * blockScales b n

/-- Each element of a result with scales for each block is the sum of the scaled parts. -/
theorem matmulInt4PerBlock_apply {groupSize : ℕ} (hgroup : 0 < groupSize) (hK : K < 2 ^ 21)
    (blockScales : NdArray (numBlocks K groupSize) N ℚ) :
    mxu.matmulInt4PerBlock activation weightPacked blockScales M K N groupSize =
      .ok fun m n => ((List.finRange (numBlocks K groupSize)).map
        (scaledPart activation weightPacked blockScales m n)).sum := by
  rw [matmulInt4PerBlock, if_neg hgroup.ne', dif_pos ⟨rfl, rfl⟩]
  congr 1
  funext m n
  refine (observe_foldl_of_unique (fun r : NdArray M N ℚ => r m n)
    (fun x => x + ((List.finRange (numBlocks K groupSize)).map
      (scaledPart activation weightPacked blockScales m n)).sum)
    (mem_tileStarts mxu.W_pos n.isLt) (nodup_tileStarts N mxu.W_pos)
    (fun nStart hnStart hne r => ?_) (fun r => ?_) _).trans (zero_add _)
  · exact observe_foldl_of_forall (fun r : NdArray M N ℚ => r m n)
      (fun b _ r => if_neg fun h => hne ((inTile_iff mxu.W_pos n.isLt hnStart).mp h)) r
  · have hcol := (inTile_iff mxu.W_pos n.isLt (mem_tileStarts mxu.W_pos n.isLt)).mpr rfl
    rw [← foldl_add_eq_sum]
    refine (List.foldl_hom (fun r : NdArray M N ℚ => r m n) fun r b => ?_).symm
    rw [if_pos hcol]
    dsimp only
    rw [clipInt32_eq, toInt_dotInt32_of_lt]
    · rfl
    · exact fun k => isInt4_operand weightPacked k n
    · have hle := List.length_filter_le
        (fun k : Fin K => InTile K groupSize (b * groupSize) k) (List.finRange K)
      rw [List.length_finRange] at hle
      omega

/-- Scales that are the same for every block of a column can be applied to the whole sum. -/
theorem matmulInt4PerBlock_eq_perChannel {groupSize : ℕ} (hgroup : 0 < groupSize)
    (hK : K < 2 ^ 21) {blockScales : NdArray (numBlocks K groupSize) N ℚ}
    {weightScales : Fin N → ℚ} (hscales : ∀ b n, blockScales b n = weightScales n) :
    mxu.matmulInt4PerBlock activation weightPacked blockScales M K N groupSize =
      mxu.matmulInt4PerChannel activation weightPacked weightScales M K N := by
  rw [matmulInt4PerBlock_apply mxu activation weightPacked hgroup hK, matmulInt4PerChannel,
    dif_pos rfl]
  congr 1
  funext m n
  have hscaled : ∀ b, scaledPart activation weightPacked blockScales m n b =
      (blockDot activation weightPacked (K := K) groupSize b m n : ℚ) * weightScales n := by
    intro b
    rw [scaledPart, hscales b n]
  have hwhole : (mxu.matmulInt32 activation weightPacked M K N m n).toInt =
      dotExact (operand M K activation m) (operand K N (unpackInt4 weightPacked) · n)
        (List.finRange K) := by
    rw [matmulInt32_apply]
    exact toInt_dotInt32_of_lt (fun k => isInt4_operand weightPacked k n)
      (by rwa [List.length_finRange])
  rw [List.map_congr_left fun b _ => hscaled b, List.sum_map_mul_right, hwhole,
    ← sum_blockDot activation weightPacked hgroup, Int.cast_list_sum, List.map_map]
  rfl

end Scales

/-- A reduction in a full block and a short one. -/
theorem matmulInt4PerBlock_sample :
    standard.matmulInt4PerBlock [1, -3, 5] [0x21, 0x0F]
      (fun (_ : Fin (numBlocks 3 2)) (_ : Fin 1) => 1 / 2) 1 3 1 2 =
        standard.matmulInt4PerChannel [1, -3, 5] [0x21, 0x0F] (fun _ : Fin 1 => 1 / 2) 1 3 1 :=
  standard.matmulInt4PerBlock_eq_perChannel [1, -3, 5] [0x21, 0x0F] (by decide) (by decide)
    fun _ _ => rfl

end GoldenMXU

end Core

end NpuArc
