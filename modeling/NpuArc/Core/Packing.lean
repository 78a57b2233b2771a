import NpuArc.Library.Interleave
import NpuArc.Library.BitFields

/-!
# Packed weights

Two weights of four bits are stored in a byte, the first one in its low nibble. A nibble from 8
to 15 stands for a negative weight. Three more places of the source write the format or read it
on their own.
-/

namespace NpuArc

namespace Core

/-- The range of weights of four bits. -/
def IsInt4 (v : Int8) : Prop := -8 ≤ v ∧ v ≤ 7

instance (v : Int8) : Decidable (IsInt4 v) := inferInstanceAs (Decidable (_ ∧ _))

/-- The low nibble of a byte. -/
def lowNibble (b : UInt8) : UInt8 := b &&& 0x0F

/-- The high nibble of a byte. -/
def highNibble (b : UInt8) : UInt8 := b >>> 4 &&& 0x0F

/-- The low nibbles of two bytes in one byte. -/
def joinNibbles (a b : UInt8) : UInt8 := lowNibble a ||| lowNibble b <<< 4

/-- Convert a negative weight to an unsigned number of four bits. -/
def toNibble (v : Int8) : UInt8 := (if v < 0 then v + 16 else v).toUInt8

/-- Sign-extend a number of four bits: values above 7 are negative. -/
def signExtend (x : Int8) : Int8 := if x > 7 then x - 16 else x

namespace GoldenMXU

/-- Unpack weights, two of which are stored in a byte. -/
def unpackInt4 (packed : List UInt8) : List Int8 :=
  let low := packed.map fun b => signExtend (lowNibble b).toInt8
  let high := packed.map fun b => signExtend (highNibble b).toInt8
  interleave low high

/-- Pack weights, two into a byte. -/
def packInt4 (values : List Int8) : List UInt8 :=
  let unsigned := (padEven 0 values).map toNibble
  List.zipWith joinNibbles (everyOther unsigned) (everyOther unsigned.tail)

end GoldenMXU

/-! ### Nibbles -/

theorem toNat_lowNibble (b : UInt8) : (lowNibble b).toNat = b.toNat % 2 ^ 4 := by
  rw [lowNibble, UInt8.toNat_and]
  exact and_mask b.toNat 4

theorem toNat_highNibble (b : UInt8) : (highNibble b).toNat = b.toNat / 2 ^ 4 % 2 ^ 4 := by
  rw [highNibble, UInt8.toNat_and, UInt8.toNat_shiftRight]
  exact shiftRight_and_mask b.toNat 4 4

theorem toNat_joinNibbles (a b : UInt8) :
    (joinNibbles a b).toNat = b.toNat % 2 ^ 4 * 2 ^ 4 + a.toNat % 2 ^ 4 := by
  have hfits : b.toNat % 2 ^ 4 * 2 ^ 4 % 2 ^ 8 = b.toNat % 2 ^ 4 * 2 ^ 4 := by omega
  rw [joinNibbles, UInt8.toNat_or, UInt8.toNat_shiftLeft, toNat_lowNibble, toNat_lowNibble,
    Nat.or_comm]
  change (b.toNat % 2 ^ 4) <<< 4 % 2 ^ 8 ||| _ = _
  rw [Nat.shiftLeft_eq, hfits]
  exact or_eq_add (i := 4) (by omega) (by omega)

/-- The low nibble is the first one of a pair. -/
theorem lowNibble_joinNibbles (a b : UInt8) : lowNibble (joinNibbles a b) = lowNibble a := by
  apply UInt8.toNat_inj.mp
  rw [toNat_lowNibble, toNat_joinNibbles, toNat_lowNibble]
  omega

/-- The high nibble is the second one of a pair. -/
theorem highNibble_joinNibbles (a b : UInt8) : highNibble (joinNibbles a b) = lowNibble b := by
  apply UInt8.toNat_inj.mp
  rw [toNat_highNibble, toNat_joinNibbles, toNat_lowNibble]
  omega

/-- A weight of four bits is one of sixteen. -/
theorem IsInt4.forall {P : Int8 → Prop}
    (h : ∀ i ∈ List.range 16, P (Int8.ofInt (i - 8 : ℤ))) {v : Int8} (hv : IsInt4 v) : P v := by
  obtain ⟨hlow, hhigh⟩ := hv
  rw [Int8.le_iff_toInt_le] at hlow hhigh
  change -8 ≤ v.toInt at hlow
  change v.toInt ≤ 7 at hhigh
  have hi : ((v.toInt + 8).toNat : ℤ) - 8 = v.toInt := by omega
  have hP := h (v.toInt + 8).toNat (List.mem_range.mpr (by omega))
  rwa [hi, Int8.ofInt_toInt] at hP

/-- The nibble of a weight gives it back. -/
theorem signExtend_toNibble {v : Int8} (hv : IsInt4 v) :
    signExtend (lowNibble (toNibble v)).toInt8 = v :=
  hv.forall (P := fun v => signExtend (lowNibble (toNibble v)).toInt8 = v) (by decide)

/-- A nibble is extended to a weight of four bits. -/
theorem isInt4_signExtend {u : UInt8} (h : u.toNat < 16) : IsInt4 (signExtend u.toInt8) := by
  have hforall : ∀ i ∈ List.range 16, IsInt4 (signExtend (UInt8.ofNat i).toInt8) := by decide
  have hu := hforall u.toNat (List.mem_range.mpr h)
  rwa [UInt8.ofNat_toNat] at hu

/-! ### The codec -/

/-- Padding with a zero keeps to the range. -/
theorem isInt4_of_mem_padEven {values : List Int8} (h : ∀ v ∈ values, IsInt4 v) :
    ∀ v ∈ padEven 0 values, IsInt4 v := by
  intro v hv
  rw [padEven_eq] at hv
  obtain hv | hv := List.mem_append.mp hv
  · exact h v hv
  · split_ifs at hv
    · rw [List.mem_singleton.mp hv]
      decide
    · cases hv

namespace GoldenMXU

/-- Unpacking what was packed gives the weights, and a zero where their number is odd. -/
theorem unpackInt4_packInt4 {values : List Int8} (h : ∀ v ∈ values, IsInt4 v) :
    unpackInt4 (packInt4 values) = values ++ if values.length % 2 ≠ 0 then [0] else [] := by
  have hpad := isInt4_of_mem_padEven h
  have hlen : ((padEven 0 values).map toNibble).length % 2 = 0 := by
    rw [List.length_map]
    exact length_padEven 0 values
  have hback : ((padEven 0 values).map toNibble).map (fun b => signExtend (lowNibble b).toInt8) =
      padEven 0 values := by
    rw [List.map_map]
    exact (List.map_congr_left fun v hv => signExtend_toNibble (hpad v hv)).trans
      (List.map_id' _)
  rw [← padEven_eq, ← hback, unpackInt4, packInt4]
  refine interleave_zipWith hlen (fun a _ b _ => ?_) fun a _ b _ => ?_
  · rw [lowNibble_joinNibbles]
  · rw [highNibble_joinNibbles]

end GoldenMXU

end Core

end NpuArc
