import Mathlib.Data.List.Basic
import Mathlib.Data.List.Induction
import Mathlib.Tactic.Common

/-!
# The last write to a cell

A run of operations is a list, and each operation may write a value to a cell. After the
run the cell holds the value of the last write, or what it held before when no operation
writes. A cell of a larger state is described in this way by saying what each single
operation writes to it.
-/

namespace NpuArc

namespace LastWrite

variable {σ α β γ : Type*} {w : α → Option β} {l : List α} {b : β}

/-- The value of the last write of a run. -/
def last (w : α → Option β) (l : List α) : Option β := (l.filterMap w).getLast?

@[simp] theorem last_nil (w : α → Option β) : last w [] = none := rfl

/-- Running one more operation. -/
theorem last_concat (w : α → Option β) (l : List α) (a : α) :
    last w (l ++ [a]) = (w a).or (last w l) := by
  rw [last, List.filterMap_append]
  cases h : w a with
  | none => simp [List.filterMap_cons_none h, last]
  | some b => simp [List.filterMap_cons_some h]

/-- A cell that every operation either writes or leaves alone holds the last write. -/
theorem foldl_eq_last (step : σ → α → σ) (cell : σ → β)
    (hstep : ∀ s a, cell (step s a) = (w a).getD (cell s)) (s : σ) (l : List α) :
    cell (l.foldl step s) = (last w l).getD (cell s) := by
  induction l using List.reverseRecOn with
  | nil => rfl
  | append_singleton l a ih =>
    rw [List.foldl_append, List.foldl_cons, List.foldl_nil, hstep, ih, last_concat]
    cases w a <;> rfl

/-- A cell that operations only ever set holds whether one of them was run. -/
theorem foldl_eq_any (step : σ → α → σ) (cell : σ → Bool) (p : α → Bool)
    (hstep : ∀ s a, cell (step s a) = (p a || cell s)) (s : σ) (l : List α) :
    cell (l.foldl step s) = (l.any p || cell s) := by
  induction l generalizing s with
  | nil => rfl
  | cons a l ih => rw [List.foldl_cons, ih, hstep, List.any_cons, Bool.or_left_comm,
      Bool.or_assoc]

/-- Writing the images of the values writes the image of the last one. -/
theorem last_map (f : β → γ) (w : α → Option β) (l : List α) :
    last (fun a => (w a).map f) l = (last w l).map f := by
  rw [last, last, ← List.getLast?_map, List.map_filterMap]

theorem last_congr {w' : α → Option β} (h : ∀ a ∈ l, w a = w' a) : last w l = last w' l := by
  rw [last, last, List.filterMap_congr h]

/-- The last write is the write of an operation of the run. -/
theorem exists_of_last (h : last w l = some b) : ∃ a ∈ l, w a = some b := by
  rw [last] at h
  exact List.mem_filterMap.mp (List.mem_of_getLast? h)

/-- A run in which some operation writes has a last write. -/
theorem exists_last {a : α} (ha : a ∈ l) (hw : w a = some b) : ∃ c, last w l = some c := by
  cases h : last w l with
  | some c => exact ⟨c, rfl⟩
  | none =>
    rw [last, List.getLast?_eq_none_iff, List.filterMap_eq_nil_iff] at h
    cases hw.symm.trans (h a ha)

/-- Keep the writes of accepted values. -/
def only (p : β → Bool) (w : α → Option β) (a : α) : Option β := (w a).filter p

/-- An accepted last write is the last of the accepted ones. -/
theorem last_only {p : β → Bool} (h : last w l = some b) (hb : p b = true) :
    last (only p w) l = some b := by
  have hfilter : l.filterMap (only p w) = (l.filterMap w).filter p := by
    rw [List.filter_filterMap]
    rfl
  rw [last, hfilter]
  obtain ⟨before, hbefore⟩ := List.getLast?_eq_some_iff.mp h
  simp [hbefore, List.filter_append, hb]

end LastWrite

end NpuArc
