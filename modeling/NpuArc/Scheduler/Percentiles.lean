import NpuArc.Library.KBest
import NpuArc.Scheduler.BusyTime
import Mathlib.Data.Set.Card

/-!
# Percentiles and the busy time of a window

The nearest rank of a percentile is the least number of elements that make up the percentage, so the
element with this rank is the least one with the percentage below or equal to it. An empty list has
no such element, and `0` stands for it. Whatever the window, the busy time that is clipped to it is
no more than its length.
-/

namespace NpuArc

open Intervals

variable {sortedValues : List ℚ} {percentile : ℚ}

/-! ### Percentiles -/

/-- The least element with a percentage of all elements below or equal to it. -/
structure LeastWithPercentage (sortedValues : List ℚ) (percentile v : ℚ) : Prop where
  mem : v ∈ sortedValues
  enough : percentile * sortedValues.length ≤
    100 * (sortedValues.countP fun a => decide (a ≤ v) : ℕ)
  least : ∀ w ∈ sortedValues, percentile * sortedValues.length ≤
    100 * (sortedValues.countP fun a => decide (a ≤ w) : ℕ) → v ≤ w

/-- The percentile is found at a place of the list, and the places before do not reach it. -/
theorem exists_nearestRank (hvalues : sortedValues ≠ []) (hpos : 0 < percentile)
    (hle : percentile ≤ 100) : ∃ (i : ℕ) (hi : i < sortedValues.length),
      nearestRankPercentile sortedValues percentile = sortedValues[i] ∧
      percentile * sortedValues.length ≤ 100 * (i + 1) ∧
      100 * i < percentile * sortedValues.length := by
  have hlength : 0 < sortedValues.length := List.length_pos_iff.mpr hvalues
  have hlengthℚ : (0 : ℚ) < sortedValues.length := by exact_mod_cast hlength
  set share : ℚ := percentile / 100 * (sortedValues.length : ℤ) with hshare
  have hscaled : 100 * share = percentile * sortedValues.length := by
    rw [hshare]
    push_cast
    ring
  have hfirst : 1 ≤ ⌈share⌉ := by
    rw [Int.one_le_ceil_iff]
    rw [hshare]
    push_cast
    positivity
  have hlast : ⌈share⌉ ≤ sortedValues.length := by
    rw [Int.ceil_le]
    have hmul := mul_le_mul_of_nonneg_right hle hlengthℚ.le
    rw [← hscaled] at hmul
    push_cast
    linarith
  have hi : (⌈share⌉ - 1).toNat < sortedValues.length := by omega
  have hcast : (((⌈share⌉ - 1).toNat : ℕ) : ℚ) = (⌈share⌉ : ℚ) - 1 := by
    have hnat : (((⌈share⌉ - 1).toNat : ℕ) : ℤ) = ⌈share⌉ - 1 := Int.toNat_of_nonneg (by omega)
    exact_mod_cast congrArg (Int.cast : ℤ → ℚ) hnat
  refine ⟨(⌈share⌉ - 1).toNat, hi, ?_, ?_, ?_⟩
  · unfold nearestRankPercentile
    dsimp only
    rw [← hshare, min_eq_left hlast, max_eq_right hfirst, List.getD_eq_getElem?_getD,
      List.getElem?_eq_getElem hi, Option.getD_some]
  · rw [hcast, ← hscaled]
    have hceil := Int.le_ceil share
    linarith
  · rw [hcast, ← hscaled]
    have hceil := Int.ceil_lt_add_one share
    linarith

/-- The percentile of a list with elements. -/
theorem leastWithPercentage (hsorted : sortedValues.Pairwise (· ≤ ·)) (hvalues : sortedValues ≠ [])
    (hpos : 0 < percentile) (hle : percentile ≤ 100) : LeastWithPercentage sortedValues percentile
      (nearestRankPercentile sortedValues percentile) := by
  obtain ⟨i, hi, hvalue, henough, hbefore⟩ := exists_nearestRank hvalues hpos hle
  rw [hvalue]
  refine ⟨List.getElem_mem hi, ?_, fun w _ hw => ?_⟩
  · have hcount := lt_countP_le_getElem hsorted hi
    have hcountℚ : ((i + 1 : ℕ) : ℚ) ≤
        (sortedValues.countP fun a => decide (a ≤ sortedValues[i]) : ℕ) := by
      exact_mod_cast hcount
    push_cast at hcountℚ
    linarith
  · by_contra hlt
    have hcount := countP_le_of_lt_getElem hsorted hi (not_le.mp hlt)
    have hcountℚ : ((sortedValues.countP fun a => decide (a ≤ w) : ℕ) : ℚ) ≤ i := by
      exact_mod_cast hcount
    linarith

/-! ### Busy time -/

/-- Intervals that do not reach beyond their starts add nothing to the length. -/
theorem unionLoop_le {rest : List (ℤ × ℤ)} {total curStart curEnd : ℤ} (hcur : curEnd ≤ curStart)
    (hrest : ∀ e ∈ rest, e.2 ≤ e.1) : unionLoop rest total curStart curEnd ≤ total := by
  induction rest generalizing total curStart curEnd with
  | nil =>
    unfold unionLoop
    omega
  | cons e rest ih =>
    obtain ⟨start, stop⟩ := e
    rw [List.forall_mem_cons] at hrest
    have hinterval : stop ≤ start := hrest.1
    unfold unionLoop
    split_ifs with hinside
    · exact ih (by omega) hrest.2
    · have hlater : unionLoop rest (total + (curEnd - curStart)) start stop ≤
          total + (curEnd - curStart) := ih hinterval hrest.2
      omega

theorem unionIntervalsLength_nonpos {intervals : List (ℤ × ℤ)} (h : ∀ e ∈ intervals, e.2 ≤ e.1) :
    unionIntervalsLength intervals ≤ 0 := by
  have hperm := List.perm_insertionSort (fun a b : ℤ × ℤ => (toLex a : ℤ ×ₗ ℤ) ≤ toLex b) intervals
  unfold unionIntervalsLength
  cases hcase : intervals.insertionSort fun a b => (toLex a : ℤ ×ₗ ℤ) ≤ toLex b with
  | nil => exact le_rfl
  | cons e rest =>
    obtain ⟨start, stop⟩ := e
    rw [hcase] at hperm
    have hall : ∀ e ∈ (start, stop) :: rest, e.2 ≤ e.1 := fun e he => h e (hperm.mem_iff.mp he)
    rw [List.forall_mem_cons] at hall
    exact unionLoop_le hall.1 hall.2

/-- The instants that intervals cover. -/
def coveredInstants (intervals : List (ℤ × ℤ)) : Set ℤ := {t | ∃ e ∈ intervals, e.1 ≤ t ∧ t < e.2}

theorem ncard_coveredInstants (intervals : List (ℤ × ℤ)) :
    (coveredInstants intervals).ncard = (cover intervals).card := by
  have hcover : coveredInstants intervals = (cover intervals : Set ℤ) := by
    ext t
    rw [Finset.mem_coe, mem_cover]
    rfl
  rw [hcover, Set.ncard_coe_finset]

/-- The busy time of a window is no more than its length. -/
theorem unionIntervalsLength_clip_le {intervals : List (ℤ × ℤ)}
    (hle : ∀ e ∈ intervals, e.1 ≤ e.2) (windowStartPs windowEndPs : ℤ) :
    unionIntervalsLength (MetricsCollector.clip windowStartPs windowEndPs intervals) ≤
      max 0 (windowEndPs - windowStartPs) := by
  by_cases hwindow : windowStartPs ≤ windowEndPs
  · rw [unionIntervalsLength_eq fun e he => MetricsCollector.le_of_mem_clip hwindow hle he]
    have hsubset : cover (MetricsCollector.clip windowStartPs windowEndPs intervals) ⊆
        Finset.Ico windowStartPs windowEndPs := by
      intro t ht
      exact Finset.mem_Ico.mpr (MetricsCollector.mem_cover_clip.mp ht).2
    have hcard := Finset.card_le_card hsubset
    rw [Int.card_Ico] at hcard
    omega
  · -- A window that ends before it starts turns every interval around.
    have hempty : ∀ e ∈ MetricsCollector.clip windowStartPs windowEndPs intervals, e.2 ≤ e.1 := by
      intro e he
      unfold MetricsCollector.clip at he
      obtain ⟨e', -, rfl⟩ := List.mem_map.mp he
      dsimp only
      omega
    exact (unionIntervalsLength_nonpos hempty).trans (le_max_left _ _)

/-- The sweep counts the instants that intervals cover, the busy time of a window is no more than
its length, and the percentile of a list with elements is the least element with the percentage
below or equal to it. -/
theorem busyTime_and_percentile {intervals : List (ℤ × ℤ)} (hle : ∀ e ∈ intervals, e.1 ≤ e.2)
    (windowStartPs windowEndPs : ℤ) (hsorted : sortedValues.Pairwise (· ≤ ·))
    (hpos : 0 < percentile) (hhundred : percentile ≤ 100) :
    unionIntervalsLength intervals = (coveredInstants intervals).ncard ∧
      unionIntervalsLength (MetricsCollector.clip windowStartPs windowEndPs intervals) ≤
        max 0 (windowEndPs - windowStartPs) ∧
      (sortedValues ≠ [] → LeastWithPercentage sortedValues percentile
        (nearestRankPercentile sortedValues percentile)) ∧
      (sortedValues = [] → nearestRankPercentile sortedValues percentile = 0) := by
  refine ⟨?_, unionIntervalsLength_clip_le hle _ _,
    fun hvalues => leastWithPercentage hsorted hvalues hpos hhundred, ?_⟩
  · rw [unionIntervalsLength_eq hle, ncard_coveredInstants]
  · rintro rfl
    rfl

theorem busyTime_and_percentile_sample :
    unionIntervalsLength [(0, 4), (4, 6), (1, 2)] =
        (coveredInstants [(0, 4), (4, 6), (1, 2)]).ncard ∧
      unionIntervalsLength (MetricsCollector.clip 1 5 [(0, 4), (4, 6), (1, 2)]) ≤ max 0 (5 - 1) ∧
      (([1, 2, 5] : List ℚ) ≠ [] → LeastWithPercentage [1, 2, 5] 50
        (nearestRankPercentile [1, 2, 5] 50)) ∧
      (([1, 2, 5] : List ℚ) = [] → nearestRankPercentile [1, 2, 5] 50 = 0) := by
  have hle : ∀ e ∈ ([(0, 4), (4, 6), (1, 2)] : List (ℤ × ℤ)), e.1 ≤ e.2 := by decide
  have hsorted : ([1, 2, 5] : List ℚ).Pairwise (· ≤ ·) := by norm_num
  exact busyTime_and_percentile hle 1 5 hsorted (by norm_num) (by norm_num)

/-- An empty list has no element for a percentile. -/
theorem percentile_of_nothing :
    ¬∀ (sortedValues : List ℚ) (percentile : ℚ), sortedValues.Pairwise (· ≤ ·) → 0 < percentile →
      percentile ≤ 100 → LeastWithPercentage sortedValues percentile
        (nearestRankPercentile sortedValues percentile) := by
  intro h
  have hnone := h [] 50 .nil (by norm_num) (by norm_num)
  exact List.not_mem_nil hnone.mem

end NpuArc
