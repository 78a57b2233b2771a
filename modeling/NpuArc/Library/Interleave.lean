import Mathlib.Tactic.Common

/-!
# Strided halves of a list

A list is split into the elements at even and at odd places, and two lists are interleaved.
Elements joined two at a time are given back by interleaving what is taken from each pair.
-/

namespace NpuArc

variable {α β γ : Type}

/-- Every second element of a list, from the first one on. -/
def everyOther : List α → List α
  | [] => []
  | [a] => [a]
  | a :: _ :: l => a :: everyOther l

/-- The elements of two lists in turn. -/
def interleave : List α → List α → List α
  | a :: l, b :: l' => a :: b :: interleave l l'
  | _, _ => []

/-- A list with one more element where its length is odd. -/
def padEven (pad : α) (l : List α) : List α := if l.length % 2 ≠ 0 then l ++ [pad] else l

theorem everyOther_cons (a : α) (l : List α) : everyOther (a :: l) = a :: everyOther l.tail := by
  cases l with
  | nil => rfl
  | cons b l => rfl

theorem everyOther_map (f : α → β) (l : List α) : everyOther (l.map f) = (everyOther l).map f := by
  induction l using everyOther.induct with
  | case1 => rfl
  | case2 a => rfl
  | case3 a b l ih => rw [List.map_cons, List.map_cons, everyOther, ih, everyOther, List.map_cons]

theorem interleave_map (f : α → β) (l l' : List α) :
    interleave (l.map f) (l'.map f) = (interleave l l').map f := by
  induction l, l' using interleave.induct with
  | case1 a l b l' ih => rw [List.map_cons, List.map_cons, interleave, ih, interleave,
      List.map_cons, List.map_cons]
  | case2 l l' h =>
    cases l with
    | nil => rfl
    | cons a l =>
      cases l' with
      | nil => rfl
      | cons b l' => exact absurd rfl (h a l b l' rfl)

theorem interleave_replicate (a : α) (n : ℕ) :
    interleave (List.replicate n a) (List.replicate n a) = List.replicate (n + n) a := by
  induction n with
  | zero => rfl
  | succ n ih =>
    have hlen : n + 1 + (n + 1) = n + n + 1 + 1 := by omega
    rw [hlen, List.replicate_succ, interleave, ih, List.replicate_succ, List.replicate_succ]

/-- The elements of an interleaved list come from both lists. -/
theorem mem_interleave {x : α} {l l' : List α} (h : x ∈ interleave l l') : x ∈ l ∨ x ∈ l' := by
  induction l, l' using interleave.induct with
  | case1 a l b l' ih =>
    rw [interleave, List.mem_cons, List.mem_cons] at h
    obtain rfl | rfl | h := h
    · exact .inl List.mem_cons_self
    · exact .inr List.mem_cons_self
    · exact (ih h).imp (List.mem_cons_of_mem a) (List.mem_cons_of_mem b)
  | case2 l l' hne =>
    cases l with
    | nil => cases h
    | cons a l =>
      cases l' with
      | nil => cases h
      | cons b l' => exact absurd rfl (hne a l b l' rfl)

theorem length_padEven (pad : α) (l : List α) : (padEven pad l).length % 2 = 0 := by
  unfold padEven
  split_ifs with h
  · rw [List.length_append, List.length_singleton]
    omega
  · omega

/-- At most one element is added. -/
theorem padEven_eq (pad : α) (l : List α) :
    padEven pad l = l ++ if l.length % 2 ≠ 0 then [pad] else [] := by
  unfold padEven
  split_ifs
  · rfl
  · rw [List.append_nil]

/-- What is taken from each pair of a list of even length, in turn. -/
theorem interleave_zipWith {join : α → α → β} {first second : β → γ} {f : α → γ} {l : List α}
    (heven : l.length % 2 = 0)
    (hfirst : ∀ a ∈ l, ∀ b ∈ l, first (join a b) = f a)
    (hsecond : ∀ a ∈ l, ∀ b ∈ l, second (join a b) = f b) :
    interleave ((List.zipWith join (everyOther l) (everyOther l.tail)).map first)
      ((List.zipWith join (everyOther l) (everyOther l.tail)).map second) = l.map f := by
  induction l using everyOther.induct with
  | case1 => rfl
  | case2 a => cases heven
  | case3 a b l ih =>
    have hlen : l.length % 2 = 0 := by
      rw [List.length_cons, List.length_cons] at heven
      omega
    have hrest := ih hlen (fun x hx y hy => hfirst x (by simp [hx]) y (by simp [hy]))
      (fun x hx y hy => hsecond x (by simp [hx]) y (by simp [hy]))
    rw [everyOther, List.tail_cons, everyOther_cons, List.zipWith_cons_cons, List.map_cons,
      List.map_cons, interleave, hrest, hfirst a (by simp) b (by simp),
      hsecond a (by simp) b (by simp), List.map_cons, List.map_cons]

end NpuArc
