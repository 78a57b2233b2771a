import NpuArc.Library.Intervals
import NpuArc.Scheduler.Metrics

/-!
# Busy time

The collector's sweep over sorted intervals counts the instants that they cover, and clipping
the intervals to a window restricts the count to the instants of the window.
-/

namespace NpuArc

open Intervals

namespace MetricsCollector

variable {intervals : List (ℤ × ℤ)}

/-- Clipping keeps the covered instants of the window. -/
theorem mem_cover_clip {windowStartPs windowEndPs t : ℤ} :
    t ∈ cover (clip windowStartPs windowEndPs intervals) ↔
      t ∈ cover intervals ∧ windowStartPs ≤ t ∧ t < windowEndPs := by
  unfold clip
  simp only [mem_cover, List.mem_map, List.mem_filter, decide_eq_true_eq]
  constructor
  · rintro ⟨_, ⟨e, ⟨he, _⟩, rfl⟩, hle, hlt⟩
    dsimp only at hle hlt
    exact ⟨⟨e, he, by omega, by omega⟩, by omega, by omega⟩
  · rintro ⟨⟨e, he, hle, hlt⟩, hstart, hend⟩
    refine ⟨_, ⟨e, ⟨he, by omega, by omega⟩, rfl⟩, ?_, ?_⟩
    · dsimp only
      omega
    · dsimp only
      omega

/-- Clipped intervals do not end before they start. -/
theorem le_of_mem_clip {windowStartPs windowEndPs : ℤ} (hwindow : windowStartPs ≤ windowEndPs)
    (hle : ∀ e ∈ intervals, e.1 ≤ e.2) {e : ℤ × ℤ}
    (he : e ∈ clip windowStartPs windowEndPs intervals) : e.1 ≤ e.2 := by
  unfold clip at he
  simp only [List.mem_map, List.mem_filter, decide_eq_true_eq] at he
  obtain ⟨e', ⟨hmem, hstart, hend⟩, rfl⟩ := he
  have hinterval := hle e' hmem
  dsimp only
  omega

end MetricsCollector

/-- The sweep adds the instants that the current interval and the rest cover. -/
theorem unionLoop_eq {rest : List (ℤ × ℤ)} {total curStart curEnd : ℤ}
    (hsorted : rest.Pairwise fun a b => a.1 ≤ b.1) (hfirst : ∀ e ∈ rest, curStart ≤ e.1)
    (hle : ∀ e ∈ rest, e.1 ≤ e.2) (hcur : curStart ≤ curEnd) :
    unionLoop rest total curStart curEnd = total + (cover ((curStart, curEnd) :: rest)).card := by
  induction rest generalizing total curStart curEnd with
  | nil =>
    rw [card_cover_cons (by simp), cover_nil, Finset.card_empty]
    unfold unionLoop
    omega
  | cons e rest ih =>
    obtain ⟨start, stop⟩ := e
    rw [List.pairwise_cons] at hsorted
    rw [List.forall_mem_cons] at hfirst hle
    obtain ⟨hstart, hfirst⟩ := hfirst
    obtain ⟨hinterval, hle⟩ := hle
    dsimp only at hstart hinterval
    unfold unionLoop
    split_ifs with hinside
    · rw [ih hsorted.2 hfirst hle (by omega), cover_merge hstart hinside]
    · have hnext : ∀ e ∈ rest, start ≤ e.1 := hsorted.1
      rw [ih hsorted.2 hnext hle hinterval]
      have hlast : ∀ e ∈ (start, stop) :: rest, curEnd ≤ e.1 := by
        rw [List.forall_mem_cons]
        refine ⟨by dsimp only; omega, fun e he => ?_⟩
        have hstart' := hnext e he
        omega
      rw [card_cover_cons hlast]
      omega

/-- The length of a union of intervals is the number of instants that they cover. -/
theorem unionIntervalsLength_eq {intervals : List (ℤ × ℤ)} (hle : ∀ e ∈ intervals, e.1 ≤ e.2) :
    unionIntervalsLength intervals = (cover intervals).card := by
  have hperm := List.perm_insertionSort (fun a b : ℤ × ℤ => (toLex a : ℤ ×ₗ ℤ) ≤ toLex b) intervals
  have hsorted := List.pairwise_insertionSort (fun a b : ℤ × ℤ => (toLex a : ℤ ×ₗ ℤ) ≤ toLex b)
    intervals
  rw [← cover_perm hperm]
  unfold unionIntervalsLength
  cases hcase : intervals.insertionSort fun a b => (toLex a : ℤ ×ₗ ℤ) ≤ toLex b with
  | nil => rfl
  | cons e rest =>
    obtain ⟨start, stop⟩ := e
    rw [hcase] at hperm hsorted
    obtain ⟨hfirst, hrest⟩ := List.pairwise_cons.mp hsorted
    have hstarts : ∀ a b : ℤ × ℤ, (toLex a : ℤ ×ₗ ℤ) ≤ toLex b → a.1 ≤ b.1 := by
      intro a b hab
      rcases Prod.Lex.toLex_le_toLex.mp hab with hlt | ⟨heq, _⟩
      · exact hlt.le
      · exact heq.le
    have hlengths : ∀ e ∈ (start, stop) :: rest, e.1 ≤ e.2 :=
      fun e he => hle e (hperm.mem_iff.mp he)
    rw [List.forall_mem_cons] at hlengths
    have hafter : ∀ e ∈ rest, start ≤ e.1 := fun e he => hstarts _ _ (hfirst e he)
    have hlength : start ≤ stop := hlengths.1
    dsimp only
    rw [unionLoop_eq (hrest.imp (hstarts _ _)) hafter hlengths.2 hlength]
    omega

end NpuArc
