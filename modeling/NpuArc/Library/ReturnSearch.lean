import Mathlib.Algebra.GroupWithZero.Nat
import Mathlib.Algebra.BigOperators.Group.List.Basic
import Mathlib.Data.List.Nodup
import Mathlib.Data.List.Perm.Basic
import Mathlib.Logic.Relation

/-!
# Searching for a way back

A depth-first search with one stack and one set of visited nodes looks for a way
from a node back to itself. It answers yes when the start is popped a second time.
The search is exact on every graph with finitely many nodes that have successors:
each of them is expanded at most once, so their successors bound the rounds.
-/

namespace NpuArc

namespace ReturnSearch

open Relation

variable {α : Type*} [DecidableEq α]

/-- The rounds of the search. The stack lists its top first. -/
def returns (next : α → List α) (start : α) : ℕ → List α → List α → Bool
  | 0, _, _ => false
  | _ + 1, [], _ => false
  | fuel + 1, current :: stack, visited =>
    if current ∈ visited then
      if current = start then true else returns next start fuel stack visited
    else returns next start fuel (next current ++ stack) (current :: visited)

/-- One node is a successor of another. -/
def Edge (next : α → List α) (a b : α) : Prop := b ∈ next a

variable {next : α → List α} {start : α}

/-- What is on the stack can be reached, so the search finds only ways back. -/
private theorem returns_sound {fuel : ℕ} {stack visited : List α}
    (hstack : ∀ a ∈ stack, TransGen (Edge next) start a)
    (h : returns next start fuel stack visited = true) : TransGen (Edge next) start start := by
  induction fuel generalizing stack visited with
  | zero => cases h
  | succ fuel ih =>
    cases stack with
    | nil => cases h
    | cons current stack =>
      have hcurrent := hstack current List.mem_cons_self
      have hrest : ∀ a ∈ stack, TransGen (Edge next) start a := fun a ha =>
        hstack a (List.mem_cons_of_mem current ha)
      unfold returns at h
      split_ifs at h with hvisited hfound
      · exact hfound ▸ hcurrent
      · exact ih hrest h
      · refine ih ?_ h
        intro a ha
        rcases List.mem_append.mp ha with ha | ha
        · exact hcurrent.tail ha
        · exact hrest a ha

/-- The successors of the nodes that are not visited yet. -/
def pushesLeft (next : α → List α) (nodes visited : List α) : ℕ :=
  ((nodes.filter fun a => decide (a ∉ visited)).map fun a => (next a).length).sum

/-- Visiting a node takes its successors off. -/
private theorem pushesLeft_visit {nodes visited : List α} (hnodup : nodes.Nodup)
    (hnodes : ∀ a, a ∉ nodes → next a = []) {current : α} (hnew : current ∉ visited) :
    (next current).length + pushesLeft next nodes (current :: visited) =
      pushesLeft next nodes visited := by
  set left := nodes.filter fun a => decide (a ∉ visited)
  have hfilter : (nodes.filter fun a => decide (a ∉ current :: visited)) = left.erase current := by
    rw [(hnodup.filter _).erase_eq_filter, List.filter_filter]
    refine List.filter_congr fun a _ => ?_
    by_cases ha : a = current <;> simp [ha]
  unfold pushesLeft
  rw [hfilter]
  by_cases hmem : current ∈ nodes
  · have hleft : current ∈ left := List.mem_filter.mpr ⟨hmem, decide_eq_true hnew⟩
    have hperm := (List.perm_cons_erase hleft).map fun a => (next a).length
    rw [hperm.sum_eq, List.map_cons, List.sum_cons]
  · have hleft : current ∉ left := fun h => hmem (List.mem_of_mem_filter h)
    rw [List.erase_of_not_mem hleft, hnodes current hmem, List.length_nil, Nat.zero_add]

/-- A search that ends without an answer has visited a closed set of nodes from which no edge
leads back to the start. -/
private theorem closed_of_not_returns {nodes : List α} (hnodup : nodes.Nodup)
    (hnodes : ∀ a, a ∉ nodes → next a = []) {fuel : ℕ} {stack visited : List α}
    (hfuel : stack.length + pushesLeft next nodes visited < fuel) (hstart : start ∈ visited)
    (hedges : ∀ a ∈ visited, ∀ b ∈ next a, b ∈ visited ∧ b ≠ start ∨ b ∈ stack)
    (h : returns next start fuel stack visited = false) :
    ∃ closed : List α, start ∈ closed ∧ ∀ a ∈ closed, ∀ b ∈ next a, b ∈ closed ∧ b ≠ start := by
  induction fuel generalizing stack visited with
  | zero => exact absurd hfuel (Nat.not_lt_zero _)
  | succ fuel ih =>
    cases stack with
    | nil =>
      refine ⟨visited, hstart, fun a ha b hb => ?_⟩
      rcases hedges a ha b hb with hdone | hmem
      · exact hdone
      · exact absurd hmem List.not_mem_nil
    | cons current stack =>
      rw [List.length_cons] at hfuel
      unfold returns at h
      split_ifs at h with hvisited hfound
      · refine ih (by omega) hstart ?_ h
        intro a ha b hb
        rcases hedges a ha b hb with hdone | hmem
        · exact Or.inl hdone
        · rcases List.mem_cons.mp hmem with rfl | hmem
          · exact Or.inl ⟨hvisited, hfound⟩
          · exact Or.inr hmem
      · have hvisit := pushesLeft_visit hnodup hnodes hvisited
        have hne : current ≠ start := fun heq => hvisited (heq ▸ hstart)
        refine ih ?_ (List.mem_cons_of_mem current hstart) ?_ h
        · rw [List.length_append]
          omega
        · intro a ha b hb
          rcases List.mem_cons.mp ha with rfl | ha
          · exact Or.inr (List.mem_append_left _ hb)
          · rcases hedges a ha b hb with ⟨hdone, hb'⟩ | hmem
            · exact Or.inl ⟨List.mem_cons_of_mem current hdone, hb'⟩
            · rcases List.mem_cons.mp hmem with rfl | hmem
              · exact Or.inl ⟨List.mem_cons_self, hne⟩
              · exact Or.inr (List.mem_append_right _ hmem)

/-- With a round for every successor, the search finds exactly the ways back to the start. -/
theorem returns_iff {nodes : List α} (hnodup : nodes.Nodup)
    (hnodes : ∀ a, a ∉ nodes → next a = []) {fuel : ℕ}
    (hfuel : (nodes.map fun a => (next a).length).sum + 1 < fuel) :
    returns next start fuel [start] [] = true ↔ TransGen (Edge next) start start := by
  obtain ⟨fuel, rfl⟩ := Nat.exists_eq_add_one_of_ne_zero (Nat.ne_zero_of_lt hfuel)
  have hfirst : returns next start (fuel + 1) [start] [] =
      returns next start fuel (next start) [start] := by
    rw [returns, if_neg List.not_mem_nil, List.append_nil]
  have hall : pushesLeft next nodes [] = (nodes.map fun a => (next a).length).sum := by
    simp [pushesLeft]
  rw [hfirst]
  constructor
  · exact returns_sound fun a ha => .single ha
  · intro hback
    by_contra hfalse
    have hvisit := pushesLeft_visit hnodup hnodes (List.not_mem_nil (a := start))
    obtain ⟨closed, hstart, hclosed⟩ := closed_of_not_returns hnodup hnodes
      (show (next start).length + pushesLeft next nodes [start] < fuel by omega)
      List.mem_cons_self
      (fun a ha b hb => Or.inr (List.mem_singleton.mp ha ▸ hb)) (Bool.not_eq_true _ ▸ hfalse)
    have hreach : ∀ b, TransGen (Edge next) start b → b ∈ closed ∧ b ≠ start := by
      intro b hpath
      induction hpath with
      | single hedge => exact hclosed start hstart _ hedge
      | tail _ hedge ih => exact hclosed _ ih.1 _ hedge
    exact (hreach start hback).2 rfl

end ReturnSearch

end NpuArc
