import NpuArc.Core.Packing
import NpuArc.Library.NdArray
import NpuArc.Library.Tiles
import Mathlib.Algebra.Order.Ring.Rat
import Mathlib.Data.Rat.Floor

/-!
# Quantization of weights

A matrix of weights is quantized to four bits, with a scale for each column or for each column
of a block of rows, and packed in row-major order. Both functions pack on their own, and the
function that dequantizes unpacks on its own.

Weights are finite numbers. The rounding of a result to single precision is a parameter, of
which nothing is assumed.
-/

namespace NpuArc

namespace Core

/-- An exception raised by the numeric code. -/
inductive NumericError
  | valueError (message : String)
  | zeroDivisionError (message : String)
  | assertionError (message : String)
  deriving DecidableEq

/-- An array of some shape, which needs as many elements as the shape has. -/
def reshape (K N : ℕ) (flat : List Int8) : Except NumericError (NdArray K N Int8) :=
  match NdArray.reshape K N flat with
  | some m => .ok m
  | none =>
    .error (.valueError s!"cannot reshape array of size {flat.length} into shape ({K},{N})")

/-- Round to the nearest integer, and to an even one in the middle between two. -/
def roundHalfEven (x : ℚ) : ℤ :=
  if x - x.floor < 1 / 2 then x.floor
  else if x - x.floor > 1 / 2 then x.floor + 1
  else if x.floor % 2 = 0 then x.floor
  else x.floor + 1

/-- The largest absolute value of a column. -/
def maxAbs (col : List ℚ) : ℚ := (col.map fun x => |x|).foldl max 0

/-- Pack quantized values, two into a byte, the low nibble first. -/
def packFlat (flat : List Int8) : List UInt8 :=
  let unsigned := (padEven 0 flat).map toNibble
  List.zipWith joinNibbles (everyOther unsigned) (everyOther unsigned.tail)

/-- Sign-extend a number of four bits in a wider type. -/
def signExtendWide (u : UInt8) : Int8 :=
  (if u > 7 then u.toUInt16.toInt16 - 16 else u.toUInt16.toInt16).toInt8

/-- Unpack quantized values, the low nibble first. -/
def unpackFlat (packed : List UInt8) : List Int8 :=
  let flatUnsigned := interleave (packed.map lowNibble) (packed.map highNibble)
  flatUnsigned.map signExtendWide

section Quantize

variable (rnd : ℚ → ℚ) {K N : ℕ}

/-- The scale of a column. A column that is nearly zero has the scale one. -/
def columnScale (col : List ℚ) : ℚ :=
  if maxAbs col < rnd (1 / 10 ^ 12) then 1 else rnd (maxAbs col / 7)

/-- An element of a column, divided by the scale, rounded and clipped. -/
def quantizeElem (col : List ℚ) (x : ℚ) : Int8 :=
  if maxAbs col < rnd (1 / 10 ^ 12) then 0
  else Int8.ofInt (min (max (roundHalfEven (rnd (x / columnScale rnd col))) (-7)) 7)

/-! ### A scale for each column -/

/-- The elements of a column. -/
def column (W : NdArray K N ℚ) (c : Fin N) : List ℚ := List.ofFn fun k => W k c

/-- The quantized values of a matrix, column by column. -/
def quantizedPerChannel (W : NdArray K N ℚ) : NdArray K N Int8 := fun k c =>
  quantizeElem rnd (column W c) (W k c)

/-- Quantize a matrix with a scale for each column. -/
def quantizeInt4PerChannel (W : NdArray K N ℚ) :
    Except NumericError (List UInt8 × (Fin N → ℚ) × NdArray K N ℚ) :=
  if K = 0 ∧ N ≠ 0 then
    .error (.valueError
      "zero-size array to reduction operation maximum which has no identity")
  else
    let quantized := quantizedPerChannel rnd W
    let scales := fun c => columnScale rnd (column W c)
    .ok (packFlat quantized.flatten, scales, fun k c => rnd ((quantized k c).toInt * scales c))

/-- Dequantize packed values with a scale for each column. -/
def dequantizeInt4PerChannel (packed : List UInt8) (scales : Fin N → ℚ) (K : ℕ) :
    Except NumericError (NdArray K N ℚ) := do
  let quantized ← reshape K N ((unpackFlat packed).take (K * N))
  return fun k c => rnd ((quantized k c).toInt * scales c)

/-! ### A scale for each column of a block -/

/-- The number of blocks of rows. -/
def numBlocks (K groupSize : ℕ) : ℕ := (K + groupSize - 1) / groupSize

/-- The elements of a column in a block of rows. -/
def blockColumn (W : NdArray K N ℚ) (groupSize b : ℕ) (c : Fin N) : List ℚ :=
  ((List.finRange K).filter fun k : Fin K => InTile K groupSize (b * groupSize) k).map (W · c)

/-- The quantized values of a matrix, block by block. -/
def quantizedPerBlock (W : NdArray K N ℚ) (groupSize : ℕ) : NdArray K N Int8 :=
  (List.range (numBlocks K groupSize)).foldl
    (fun (quantized : NdArray K N Int8) b k c =>
      if InTile K groupSize (b * groupSize) k then
        quantizeElem rnd (blockColumn W groupSize b c) (W k c)
      else quantized k c)
    fun _ _ => 0

/-- Quantize a matrix with a scale for each column of a block. -/
def quantizeInt4PerBlock (W : NdArray K N ℚ) (groupSize : ℕ) :
    Except NumericError
      (List UInt8 × (Fin (numBlocks K groupSize) → Fin N → ℚ) × NdArray K N ℚ) :=
  if groupSize = 0 then .error (.zeroDivisionError "integer division or modulo by zero")
  else
    let quantized := quantizedPerBlock rnd W groupSize
    let scales := fun (b : Fin (numBlocks K groupSize)) c =>
      columnScale rnd (blockColumn W groupSize b c)
    let dequant := (List.finRange (numBlocks K groupSize)).foldl
      (fun (dequant : NdArray K N ℚ) (b : Fin (numBlocks K groupSize)) k c =>
        if InTile K groupSize (b * groupSize) k then rnd ((quantized k c).toInt * scales b c)
        else dequant k c)
      fun _ _ => 0
    .ok (packFlat quantized.flatten, scales, dequant)

end Quantize

/-! ### The quantized values -/

section Values

variable {rnd : ℚ → ℚ} {K N : ℕ}

theorem quantizeElem_range (col : List ℚ) (x : ℚ) :
    -7 ≤ quantizeElem rnd col x ∧ quantizeElem rnd col x ≤ 7 := by
  unfold quantizeElem
  split_ifs
  · decide
  · generalize roundHalfEven _ = i
    have hlow : -7 ≤ min (max i (-7)) 7 := by omega
    have hhigh : min (max i (-7)) 7 ≤ 7 := by omega
    have htoInt : (Int8.ofInt (min (max i (-7)) 7)).toInt = min (max i (-7)) 7 :=
      Int8.toInt_ofInt_of_le (by omega) (by omega)
    rw [Int8.le_iff_toInt_le, Int8.le_iff_toInt_le, htoInt]
    exact ⟨hlow, hhigh⟩

/-- An element is quantized in its block of rows. -/
theorem quantizedPerBlock_apply (W : NdArray K N ℚ) {groupSize : ℕ} (hgroup : 0 < groupSize)
    (k : Fin K) (c : Fin N) : quantizedPerBlock rnd W groupSize k c =
      quantizeElem rnd (blockColumn W groupSize (k / groupSize) c) (W k c) := by
  have hmem : k.val / groupSize ∈ List.range (numBlocks K groupSize) :=
    List.mem_range.mpr (div_lt_tiles hgroup k.isLt)
  refine observe_foldl_of_unique (fun m : NdArray K N Int8 => m k c)
    (fun _ => quantizeElem rnd (blockColumn W groupSize (k / groupSize) c) (W k c))
    hmem List.nodup_range (fun b _ hb m => ?_) (fun m => ?_) _
  · exact if_neg fun hin => hb ((inTile_mul_iff hgroup k.isLt).mp hin)
  · exact if_pos ((inTile_mul_iff hgroup k.isLt).mpr rfl)

theorem isInt4_of_range {v : Int8} (h : -7 ≤ v ∧ v ≤ 7) : IsInt4 v := by
  unfold IsInt4
  have hlow := Int8.le_iff_toInt_le.mp h.1
  refine ⟨Int8.le_iff_toInt_le.mpr ?_, h.2⟩
  change -7 ≤ v.toInt at hlow
  change -8 ≤ v.toInt
  omega

end Values

/-! ### One format -/

theorem packFlat_eq (flat : List Int8) : packFlat flat = GoldenMXU.packInt4 flat := rfl

/-- A nibble is extended to the same value in either type. -/
theorem signExtendWide_eq {u : UInt8} (h : u.toNat < 16) :
    signExtendWide u = signExtend u.toInt8 := by
  have hforall : ∀ i ∈ List.range 16,
      signExtendWide (UInt8.ofNat i) = signExtend (UInt8.ofNat i).toInt8 := by decide
  have hu := hforall u.toNat (List.mem_range.mpr h)
  rwa [UInt8.ofNat_toNat] at hu

/-- Both functions that unpack read the same values. -/
theorem unpackFlat_eq (packed : List UInt8) : unpackFlat packed = GoldenMXU.unpackInt4 packed := by
  have hnibble : ∀ u ∈ interleave (packed.map lowNibble) (packed.map highNibble),
      signExtendWide u = signExtend u.toInt8 := by
    intro u hu
    apply signExtendWide_eq
    obtain hu | hu := mem_interleave hu
    · obtain ⟨b, -, rfl⟩ := List.mem_map.mp hu
      rw [toNat_lowNibble]
      omega
    · obtain ⟨b, -, rfl⟩ := List.mem_map.mp hu
      rw [toNat_highNibble]
      omega
  rw [unpackFlat, List.map_congr_left hnibble, ← interleave_map, List.map_map, List.map_map]
  rfl

/-- The bytes hold the values of an array, for both functions that unpack. -/
structure Holds (rnd : ℚ → ℚ) {K N : ℕ} (packed : List UInt8) (q : NdArray K N Int8) : Prop where
  unpackInt4 :
    GoldenMXU.unpackInt4 packed = q.flatten ++ if K * N % 2 ≠ 0 then [0] else []
  dequantize : ∀ scales : Fin N → ℚ, dequantizeInt4PerChannel rnd packed scales K =
    .ok fun k c => rnd ((q k c).toInt * scales c)

/-- Values of four bits are read back from the bytes they are packed into. -/
theorem holds_packFlat (rnd : ℚ → ℚ) {K N : ℕ} {q : NdArray K N Int8}
    (h : ∀ k c, IsInt4 (q k c)) : Holds rnd (packFlat q.flatten) q := by
  have hunpack := GoldenMXU.unpackInt4_packInt4 (NdArray.forall_mem_flatten h)
  rw [NdArray.length_flatten] at hunpack
  have htake : (unpackFlat (packFlat q.flatten)).take (K * N) = q.flatten := by
    rw [unpackFlat_eq, packFlat_eq, hunpack]
    exact List.take_left' (NdArray.length_flatten q)
  refine ⟨hunpack, fun scales => ?_⟩
  rw [dequantizeInt4PerChannel, htake, reshape, NdArray.reshape_flatten]
  rfl

/-- A matrix with rows is quantized, and its bytes hold the quantized values. -/
theorem quantizeInt4PerChannel_holds (rnd : ℚ → ℚ) {K N : ℕ} (W : NdArray K N ℚ) (hK : 0 < K) :
    ∃ out, quantizeInt4PerChannel rnd W = .ok out ∧
      Holds rnd out.1 (quantizedPerChannel rnd W) ∧
        ∀ k c, -7 ≤ quantizedPerChannel rnd W k c ∧ quantizedPerChannel rnd W k c ≤ 7 := by
  have hrange : ∀ k c, -7 ≤ quantizedPerChannel rnd W k c ∧ quantizedPerChannel rnd W k c ≤ 7 :=
    fun k c => quantizeElem_range _ _
  exact ⟨_, if_neg fun h => hK.ne' h.1, holds_packFlat rnd fun k c => isInt4_of_range (hrange k c),
    hrange⟩

/-- A matrix is quantized with blocks of rows, and its bytes hold the quantized values. -/
theorem quantizeInt4PerBlock_holds (rnd : ℚ → ℚ) {K N : ℕ} (W : NdArray K N ℚ) {groupSize : ℕ}
    (hgroup : 0 < groupSize) : ∃ out, quantizeInt4PerBlock rnd W groupSize = .ok out ∧
      Holds rnd out.1 (quantizedPerBlock rnd W groupSize) ∧
        ∀ k c, -7 ≤ quantizedPerBlock rnd W groupSize k c ∧
          quantizedPerBlock rnd W groupSize k c ≤ 7 := by
  have hrange : ∀ k c, -7 ≤ quantizedPerBlock rnd W groupSize k c ∧
      quantizedPerBlock rnd W groupSize k c ≤ 7 := by
    intro k c
    rw [quantizedPerBlock_apply W hgroup]
    exact quantizeElem_range _ _
  exact ⟨_, if_neg hgroup.ne', holds_packFlat rnd fun k c => isInt4_of_range (hrange k c), hrange⟩

/-- The format of packed weights is one everywhere: what is packed is read back, padded with a
zero where the number of weights is odd, and the bytes of a quantized matrix give both readers
the same values in row-major order, each of absolute value at most seven. -/
theorem int4_oneFormat (rnd : ℚ → ℚ) :
    (∀ values : List Int8, (∀ v ∈ values, IsInt4 v) →
      GoldenMXU.unpackInt4 (GoldenMXU.packInt4 values) =
        values ++ if values.length % 2 ≠ 0 then [0] else []) ∧
    (∀ (K N : ℕ) (W : NdArray K N ℚ), 0 < K →
      ∃ out, quantizeInt4PerChannel rnd W = .ok out ∧
        Holds rnd out.1 (quantizedPerChannel rnd W) ∧
          ∀ k c, -7 ≤ quantizedPerChannel rnd W k c ∧ quantizedPerChannel rnd W k c ≤ 7) ∧
    ∀ (K N : ℕ) (W : NdArray K N ℚ) (groupSize : ℕ), 0 < groupSize →
      ∃ out, quantizeInt4PerBlock rnd W groupSize = .ok out ∧
        Holds rnd out.1 (quantizedPerBlock rnd W groupSize) ∧
          ∀ k c, -7 ≤ quantizedPerBlock rnd W groupSize k c ∧
            quantizedPerBlock rnd W groupSize k c ≤ 7 :=
  ⟨fun _ h => GoldenMXU.unpackInt4_packInt4 h,
    fun _ _ W hK => quantizeInt4PerChannel_holds rnd W hK,
    fun _ _ W _ hgroup => quantizeInt4PerBlock_holds rnd W hgroup⟩

end Core

end NpuArc
