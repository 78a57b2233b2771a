import NpuArc.Library.Pipeline

/-!
# The schedule of two stages

Work goes through a stage of transfers and a stage of computations, in order and without gaps in the
first stage. The computation of a piece begins when it has been transferred and the computation of
the piece before is done. For equal pieces the schedule takes the time of the closed formula, and a
last piece with a shorter transfer adds the longer of its own two stages.
-/

namespace NpuArc

variable {α : Type} [Field α] [LinearOrder α]

/-- When the two stages are done with the pieces so far. -/
@[ext] structure StageTimes (α : Type) where
  transferred : α
  computed : α

/-- One more piece, given by its transfer and its computation. -/
def StageTimes.next (t : StageTimes α) (piece : α × α) : StageTimes α where
  transferred := t.transferred + piece.1
  computed := max t.computed (t.transferred + piece.1) + piece.2

/-- The times after some pieces. -/
def stageTimes (pieces : List (α × α)) : StageTimes α := pieces.foldl StageTimes.next ⟨0, 0⟩

/-- When the last piece is computed. -/
def completion (pieces : List (α × α)) : α := (stageTimes pieces).computed

theorem stageTimes_append_singleton (pieces : List (α × α)) (piece : α × α) :
    stageTimes (pieces ++ [piece]) = (stageTimes pieces).next piece := by
  rw [stageTimes, List.foldl_append]
  rfl

variable {c d l : α} {n : ℕ}

/-- One further tile takes the longer of its stages. -/
theorem pipelined_succ (hn : 0 < n) : pipelined (n + 1) c d = pipelined n c d + max c d := by
  unfold pipelined
  rw [Nat.add_sub_cancel, Nat.cast_pred hn]
  ring

theorem completion_singleton (hl : 0 ≤ l) : completion [(l, c)] = l + c := by
  simp [completion, stageTimes, StageTimes.next, hl]

variable [IsStrictOrderedRing α]

/-- A last piece whose transfer is no longer than the others. -/
theorem max_pipelined_add (hn : 0 < n) (hl : l ≤ d) :
    max (pipelined n c d) (n * d + l) + c = pipelined n c d + max c l := by
  rcases le_total c d with hcd | hdc
  · have htime : pipelined n c d = n * d + c := by
      unfold pipelined
      rw [max_eq_right hcd, Nat.cast_pred hn]
      ring
    rw [htime, max_add_add_left]
    ring
  · have hone : (1 : α) ≤ n := by exact_mod_cast hn
    have htime : pipelined n c d = n * c + d := by
      unfold pipelined
      rw [max_eq_left hdc, Nat.cast_pred hn]
      ring
    have hsteady : (n : α) * d ≤ n * c := mul_le_mul_of_nonneg_left hdc (by linarith)
    rw [max_eq_left (hl.trans hdc), max_eq_left (by rw [htime]; linarith)]

/-- Equal pieces take the time of the closed formula. -/
theorem stageTimes_replicate (hd : 0 ≤ d) (hn : 0 < n) :
    stageTimes (List.replicate n (d, c)) = ⟨n * d, pipelined n c d⟩ := by
  induction n with
  | zero => exact absurd hn (Nat.lt_irrefl 0)
  | succ n ih =>
    rw [List.replicate_succ', stageTimes_append_singleton]
    rcases Nat.eq_zero_or_pos n with rfl | hpos
    · ext
      · simp [StageTimes.next, stageTimes]
      · simp [StageTimes.next, stageTimes, pipelined, hd]
    · rw [ih hpos]
      ext
      · simp only [StageTimes.next]
        push_cast
        ring
      · simp only [StageTimes.next]
        rw [max_pipelined_add hpos le_rfl, pipelined_succ hpos]

/-- Equal pieces and a last one with a transfer that is no longer. -/
theorem completion_replicate_append (hd : 0 ≤ d) (hn : 0 < n) (hl : l ≤ d) :
    completion (List.replicate n (d, c) ++ [(l, c)]) = pipelined n c d + max c l := by
  rw [completion, stageTimes_append_singleton, stageTimes_replicate hd hn]
  exact max_pipelined_add hn hl

end NpuArc
