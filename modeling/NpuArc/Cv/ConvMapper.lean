import NpuArc.Engines.MacEngine
import Mathlib.Data.Set.Card
import Mathlib.Data.Set.Finite.Basic
import Mathlib.Tactic.LinearCombination

/-!
# Convolutions as matrix products

A convolution is mapped to a matrix product in one of three branches. A pointwise one multiplies all
channels, a depthwise one takes a row for each pixel of each input channel, and the others multiply
the channels of one group. So the work of a convolution with groups is kept only when it is
depthwise and has as many output channels as input channels.
-/

namespace NpuArc

namespace Cv

open Engines

/-- The matrix product of a convolution. -/
structure ConvGemm where
  m : ℤ
  k : ℤ
  n : ℤ
  hOut : ℤ
  wOut : ℤ
  im2colOverheadCycles : ℚ
  isDepthwise : Bool
  deriving DecidableEq

/-- Bytes of an element. -/
def bytesPerElement : ℕ := 4

/-- The effective bytes per cycle of the memory. -/
def effBw : ℚ := 51.2 * 0.85

/-- Floor division. -/
def floorDiv (a b : ℤ) : Except Failure ℤ :=
  if b = 0 then .error .zeroDivisionError else .ok (a.fdiv b)

/-- The positions of a kernel along one side of its input. -/
def computeOutputSize (h k stride pad : ℤ) : Except Failure ℤ := do
  let steps ← floorDiv (h + 2 * pad - k) stride
  .ok (steps + 1)

/-- The dimensions of the product. -/
def gemmDims (cIn cOut hOut wOut k groups : ℤ) : Except Failure (ℤ × ℤ × ℤ) :=
  if k = 1 ∧ groups = 1 then .ok (hOut * wOut, cIn, cOut)
  else if 1 < groups ∧ groups = cIn then .ok (hOut * wOut * cIn, k * k, 1)
  else do
    let kDim ← floorDiv (cIn * k * k) groups
    let n ← floorDiv cOut groups
    .ok (hOut * wOut, kDim, n)

/-- Map a convolution to a matrix product. -/
def mapConvToGemm (cIn cOut h w k : ℤ) (stride : ℤ := 1) (pad : ℤ := 0) (groups : ℤ := 1) :
    Except Failure ConvGemm := do
  let hOut ← computeOutputSize h k stride pad
  let wOut ← computeOutputSize w k stride pad
  let dims ← gemmDims cIn cOut hOut wOut k groups
  .ok
    { m := dims.1
      k := dims.2.1
      n := dims.2.2
      hOut := hOut
      wOut := wOut
      im2colOverheadCycles := dims.1 * dims.2.1 * bytesPerElement / effBw
      isDepthwise := decide (1 < groups ∧ groups = cIn) }

/-! ### Positions -/

variable {cIn cOut h w k stride pad groups : ℕ}

/-- The positions at which a kernel fits in its padded input. -/
def fittingPositions (h k stride pad : ℕ) : Set ℕ := {i | i * stride + k ≤ h + 2 * pad}

theorem ncard_fittingPositions (hstride : 1 ≤ stride) (hfits : k ≤ h + 2 * pad) :
    (fittingPositions h k stride pad).ncard = (h + 2 * pad - k) / stride + 1 := by
  have hpositions : fittingPositions h k stride pad =
      (Finset.range ((h + 2 * pad - k) / stride + 1) : Set ℕ) := by
    ext i
    rw [Finset.mem_coe, Finset.mem_range, Nat.lt_succ_iff, Nat.le_div_iff_mul_le hstride]
    change i * stride + k ≤ h + 2 * pad ↔ _
    omega
  rw [hpositions, Set.ncard_coe_finset, Finset.card_range]

/-- The output size counts the positions that fit. -/
theorem computeOutputSize_eq_ok (hstride : 1 ≤ stride) (hfits : k ≤ h + 2 * pad) :
    computeOutputSize h k stride pad = .ok (fittingPositions h k stride pad).ncard := by
  have hne : (stride : ℤ) ≠ 0 := by omega
  have hsteps : (h : ℤ) + 2 * pad - k = ((h + 2 * pad - k : ℕ) : ℤ) := by
    rw [Nat.cast_sub hfits]
    push_cast
    rfl
  rw [computeOutputSize, floorDiv, if_neg hne, ncard_fittingPositions hstride hfits, hsteps]
  change Except.ok (Int.fdiv _ _ + 1) = _
  rw [Int.fdiv_eq_ediv_of_nonneg _ (Int.natCast_nonneg stride)]
  push_cast
  rfl

theorem fittingPositions_pos (hstride : 1 ≤ stride) (hfits : k ≤ h + 2 * pad) :
    0 < (fittingPositions h k stride pad).ncard := by
  rw [ncard_fittingPositions hstride hfits]
  exact Nat.succ_pos _

/-! ### Work -/

/-- The work of the product is the work of the convolution, at every position that fits. -/
structure ConservesMacs (cIn cOut h w k stride pad groups : ℕ) (g : ConvGemm) : Prop where
  height : g.hOut = (fittingPositions h k stride pad).ncard
  width : g.wOut = (fittingPositions w k stride pad).ncard
  macs : g.m * g.k * g.n = g.hOut * g.wOut * cOut * (cIn / groups : ℕ) * k ^ 2

/-- The convolution has one group, or it is depthwise with an output channel for each input channel,
or it has no work. -/
def AllGroupsCharged (cIn cOut k groups : ℕ) : Prop :=
  groups = 1 ∨ (groups = cIn ∧ cOut = cIn) ∨ k = 0 ∨ cIn = 0 ∨ (groups ≠ cIn ∧ cOut = 0)

theorem exists_gemmDims {hOut wOut : ℕ} (hgroups : 0 < groups) (hin : groups ∣ cIn)
    (hout : groups ∣ cOut) (hpos : 0 < hOut * wOut) : ∃ dims,
      gemmDims cIn cOut hOut wOut k groups = .ok dims ∧
        (dims.1 * dims.2.1 * dims.2.2 = hOut * wOut * cOut * (cIn / groups : ℕ) * k ^ 2 ↔
          AllGroupsCharged cIn cOut k groups) := by
  obtain ⟨a, rfl⟩ := hin
  obtain ⟨b, rfl⟩ := hout
  have hshare : groups * a / groups = a := Nat.mul_div_cancel_left a hgroups
  have hne : (groups : ℤ) ≠ 0 := by omega
  rw [gemmDims, hshare]
  unfold AllGroupsCharged
  by_cases hpointwise : (k : ℤ) = 1 ∧ (groups : ℤ) = 1
  · rw [if_pos hpointwise]
    obtain ⟨hk, hone⟩ := hpointwise
    have hgroups' : groups = 1 := by omega
    refine ⟨_, rfl, iff_of_true ?_ (Or.inl hgroups')⟩
    rw [hk, hgroups']
    push_cast
    ring
  rw [if_neg hpointwise]
  by_cases hdepthwise : (1 : ℤ) < groups ∧ (groups : ℤ) = (groups * a : ℕ)
  · -- One row for each input channel.
    rw [if_pos hdepthwise]
    obtain ⟨hmany, hall⟩ := hdepthwise
    have ha : a = 1 := by
      have hmul : groups * 1 = groups * a := by rw [Nat.mul_one]; exact_mod_cast hall
      exact (Nat.eq_of_mul_eq_mul_left hgroups hmul).symm
    refine ⟨_, rfl, ?_⟩
    subst ha
    have hproduct : ((hOut : ℤ) * wOut * (groups * 1 : ℕ)) * ((k : ℤ) * k) * 1 =
        hOut * wOut * (groups * b : ℕ) * (1 : ℕ) * (k : ℤ) ^ 2 ↔
          hOut * wOut * (k * k) * groups = hOut * wOut * (k * k) * (groups * b) := by
      rw [← @Nat.cast_inj ℤ]
      push_cast
      constructor <;> intro h <;> linear_combination h
    rw [hproduct]
    by_cases hk : k = 0
    · simp [hk]
    have hfactor : 0 < hOut * wOut * (k * k) :=
      Nat.mul_pos hpos (Nat.mul_pos (Nat.pos_of_ne_zero hk) (Nat.pos_of_ne_zero hk))
    rw [Nat.mul_right_inj hfactor.ne']
    omega
  · rw [if_neg hdepthwise]
    have hkdim : floorDiv (((groups * a : ℕ) : ℤ) * k * k) groups = .ok ((a : ℤ) * k * k) := by
      have hexact : ((groups * a : ℕ) : ℤ) * k * k = groups * (a * k * k) := by
        push_cast
        ring
      rw [floorDiv, if_neg hne, hexact, Int.mul_fdiv_cancel_left _ hne]
    have hn : floorDiv ((groups * b : ℕ) : ℤ) groups = .ok (b : ℤ) := by
      rw [floorDiv, if_neg hne, Nat.cast_mul, Int.mul_fdiv_cancel_left _ hne]
    rw [hkdim, hn]
    refine ⟨_, rfl, ?_⟩
    have hproduct : ((hOut : ℤ) * wOut) * ((a : ℤ) * k * k) * b =
        hOut * wOut * (groups * b : ℕ) * (a : ℕ) * (k : ℤ) ^ 2 ↔
          hOut * wOut * (a * (k * k) * b) * 1 = hOut * wOut * (a * (k * k) * b) * groups := by
      rw [← @Nat.cast_inj ℤ]
      push_cast
      constructor <;> intro h <;> linear_combination h
    rw [hproduct, mul_eq_mul_left_iff]
    have hone : groups = groups * a → groups = 1 := by
      intro hall
      by_contra hmany
      exact hdepthwise ⟨by omega, by exact_mod_cast hall⟩
    constructor
    · rintro (heq | hnone)
      · exact Or.inl heq.symm
      · have hfactor := (Nat.mul_eq_zero.mp hnone).resolve_left hpos.ne'
        simp only [Nat.mul_eq_zero, or_self] at hfactor
        rcases hfactor with (ha | hk) | hb
        · exact Or.inr (Or.inr (Or.inr (Or.inl (by rw [ha, Nat.mul_zero]))))
        · exact Or.inr (Or.inr (Or.inl hk))
        · by_cases hall : groups = groups * a
          · exact Or.inl (hone hall)
          · exact Or.inr (Or.inr (Or.inr (Or.inr ⟨hall, by rw [hb, Nat.mul_zero]⟩)))
    · rintro (heq | ⟨hall, -⟩ | hk | ha | ⟨-, hb⟩)
      · exact Or.inl heq.symm
      · exact Or.inl (hone hall).symm
      · exact Or.inr (by rw [hk]; simp)
      · have hzero := (Nat.mul_eq_zero.mp ha).resolve_left hgroups.ne'
        exact Or.inr (by rw [hzero]; simp)
      · have hzero := (Nat.mul_eq_zero.mp hb).resolve_left hgroups.ne'
        exact Or.inr (by rw [hzero]; simp)

/-- The work of a convolution is kept exactly when all its groups are charged. -/
theorem mapConvToGemm_conserves_iff (hstride : 1 ≤ stride) (hheight : k ≤ h + 2 * pad)
    (hwidth : k ≤ w + 2 * pad) (hgroups : 0 < groups) (hin : groups ∣ cIn) (hout : groups ∣ cOut) :
    (∃ g, mapConvToGemm cIn cOut h w k stride pad groups = .ok g ∧
      ConservesMacs cIn cOut h w k stride pad groups g) ↔ AllGroupsCharged cIn cOut k groups := by
  have hpositions : 0 < (fittingPositions h k stride pad).ncard *
      (fittingPositions w k stride pad).ncard :=
    Nat.mul_pos (fittingPositions_pos hstride hheight) (fittingPositions_pos hstride hwidth)
  obtain ⟨dims, hdims, hmacs⟩ := exists_gemmDims (k := k) hgroups hin hout hpositions
  rw [mapConvToGemm, computeOutputSize_eq_ok hstride hheight,
    computeOutputSize_eq_ok hstride hwidth, bind_eq_ok_left, bind_eq_ok_left, hdims,
    bind_eq_ok_left]
  constructor
  · rintro ⟨g, hg, hconserves⟩
    cases hg
    exact hmacs.mp hconserves.macs
  · intro hcharged
    exact ⟨_, rfl, rfl, rfl, hmacs.mpr hcharged⟩

/-- A dense kernel of three by three with a stride of two. -/
theorem mapConvToGemm_conserves_dense :
    (∃ g, mapConvToGemm 3 16 224 224 3 2 1 1 = .ok g ∧ ConservesMacs 3 16 224 224 3 2 1 1 g) ↔
      AllGroupsCharged 3 16 3 1 :=
  mapConvToGemm_conserves_iff (by decide) (by decide) (by decide) (by decide) (by decide)
    (by decide)

/-- Of a convolution with two groups the product of one of them is charged. -/
theorem twoGroups_not_conserved :
    ¬∀ cIn cOut h w k stride pad groups : ℕ, 1 ≤ stride → k ≤ h + 2 * pad → k ≤ w + 2 * pad →
      0 < groups → groups ∣ cIn → groups ∣ cOut →
      ∃ g, mapConvToGemm cIn cOut h w k stride pad groups = .ok g ∧
        ConservesMacs cIn cOut h w k stride pad groups g := by
  intro hall
  obtain ⟨g, hg, hconserves⟩ := hall 4 4 8 8 3 1 1 2 (by decide) (by decide) (by decide)
    (by decide) (by decide) (by decide)
  have hvalue : mapConvToGemm (4 : ℕ) (4 : ℕ) (8 : ℕ) (8 : ℕ) (3 : ℕ) (1 : ℕ) (1 : ℕ) (2 : ℕ) =
      .ok ⟨64, 18, 2, 8, 8, 64 * 18 * bytesPerElement / effBw, false⟩ := rfl
  rw [hvalue] at hg
  cases hg
  exact absurd hconserves.macs (by decide)

end Cv

end NpuArc
