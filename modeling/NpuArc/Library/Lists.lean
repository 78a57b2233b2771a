import Mathlib.Tactic.Common
import Mathlib.Algebra.BigOperators.Group.List.Defs
import Mathlib.Data.List.Forall2
import Mathlib.Algebra.BigOperators.Group.List.Basic
import Mathlib.Algebra.Group.Basic

/-!
# Lists of items

Items of a list are compared, related and merged. Adding elements one after the other, each unless a
similar one is present, keeps the first element of every class. Two lists are related if their
members are, one by one. Merging neighbours cuts a list into steps, from left to right.
-/

namespace NpuArc

namespace Firsts

variable {α : Type*} {similar : α → α → Bool} {l kept : List α} {a : α}

/-- Add an element unless a similar one is present. -/
def addNew (similar : α → α → Bool) (kept : List α) (a : α) : List α :=
  if kept.any (similar a) then kept else kept ++ [a]

/-- An element of a list to which no element before it is similar. -/
def IsFirst (similar : α → α → Bool) (l : List α) (a : α) : Prop :=
  ∃ before after, l = before ++ a :: after ∧ ∀ b ∈ before, similar a b = false

theorem IsFirst.mem (h : IsFirst similar l a) : a ∈ l := by
  obtain ⟨before, after, rfl, -⟩ := h
  exact List.mem_append_right before List.mem_cons_self

/-- What is kept of a list beside what was kept before: the elements to which nothing
before them is similar. -/
theorem mem_foldl_addNew (htrans : ∀ a b c, similar a b = true → similar b c = true →
    similar a c = true) :
    a ∈ l.foldl (addNew similar) kept ↔ a ∈ kept ∨
      ∃ before after, l = before ++ a :: after ∧ ∀ b ∈ kept ++ before, similar a b = false := by
  induction l generalizing kept with
  | nil => simp
  | cons c l ih =>
    rw [List.foldl_cons, ih, addNew]
    by_cases hc : kept.any (similar c) = true
    · -- The head is dropped, and what is similar to it is similar to the kept one.
      rw [if_pos hc]
      obtain ⟨d, hd, hcd⟩ := List.any_eq_true.mp hc
      refine or_congr_right ⟨?_, ?_⟩
      · rintro ⟨before, after, rfl, hfirst⟩
        refine ⟨c :: before, after, rfl, fun b hb => ?_⟩
        rcases List.mem_append.mp hb with hb | hb
        · exact hfirst b (List.mem_append_left _ hb)
        · rcases List.mem_cons.mp hb with rfl | hb
          · rw [← Bool.not_eq_true]
            intro hab
            have had := hfirst d (List.mem_append_left _ hd)
            rw [htrans a b d hab hcd] at had
            cases had
          · exact hfirst b (List.mem_append_right _ hb)
      · rintro ⟨before, after, hl, hfirst⟩
        cases before with
        | nil =>
          cases hl
          have had := hfirst d (List.mem_append_left _ hd)
          rw [hcd] at had
          cases had
        | cons b before =>
          cases hl
          refine ⟨before, after, rfl, fun b hb => hfirst b ?_⟩
          rw [List.mem_append, List.mem_cons]
          rw [List.mem_append] at hb
          tauto
    · rw [if_neg hc, List.mem_append, List.mem_singleton, or_assoc]
      refine or_congr_right ⟨?_, ?_⟩
      · rintro (rfl | ⟨before, after, rfl, hfirst⟩)
        · refine ⟨[], l, rfl, fun b hb => ?_⟩
          rw [List.append_nil] at hb
          rw [← Bool.not_eq_true]
          exact fun hab => hc (List.any_eq_true.mpr ⟨b, hb, hab⟩)
        · refine ⟨c :: before, after, rfl, fun b hb => hfirst b ?_⟩
          rw [List.append_assoc]
          exact hb
      · rintro ⟨before, after, hl, hfirst⟩
        cases before with
        | nil =>
          cases hl
          exact Or.inl rfl
        | cons b before =>
          cases hl
          refine Or.inr ⟨before, after, rfl, fun b hb => hfirst b ?_⟩
          rw [List.append_assoc] at hb
          exact hb

/-- What is kept of a list are its first elements. -/
theorem mem_foldl_addNew_nil (htrans : ∀ a b c, similar a b = true → similar b c = true →
    similar a c = true) : a ∈ l.foldl (addNew similar) [] ↔ IsFirst similar l a := by
  rw [mem_foldl_addNew htrans]
  simp [IsFirst]

/-- What was kept before stays in front. -/
theorem isPrefix_foldl_addNew (l kept : List α) :
    kept <+: l.foldl (addNew similar) kept := by
  induction l generalizing kept with
  | nil => exact List.prefix_refl kept
  | cons c l ih =>
    rw [List.foldl_cons]
    refine .trans ?_ (ih _)
    rw [addNew]
    split_ifs
    · exact List.prefix_refl kept
    · exact List.prefix_append kept [c]

/-- No two kept elements are similar, if this was so before. -/
theorem pairwise_foldl_addNew (h : kept.Pairwise fun b a => similar a b = false) :
    (l.foldl (addNew similar) kept).Pairwise fun b a => similar a b = false := by
  induction l generalizing kept with
  | nil => exact h
  | cons c l ih =>
    refine ih ?_
    rw [addNew]
    split_ifs with hc
    · exact h
    · refine List.pairwise_append.mpr ⟨h, List.pairwise_singleton _ _, fun b hb a ha => ?_⟩
      rw [List.mem_singleton.mp ha, ← Bool.not_eq_true]
      exact fun hab => hc (List.any_eq_true.mpr ⟨b, hb, hab⟩)

/-- Every element is similar to one that is kept. -/
theorem exists_similar_foldl_addNew (hrefl : ∀ a, similar a a = true) (ha : a ∈ l) :
    ∃ b ∈ l.foldl (addNew similar) kept, similar a b = true := by
  induction l generalizing kept with
  | nil => cases ha
  | cons c l ih =>
    rcases List.mem_cons.mp ha with rfl | ha
    · have hstep : ∃ b ∈ addNew similar kept a, similar a b = true := by
        rw [addNew]
        split_ifs with hc
        · exact List.any_eq_true.mp hc
        · exact ⟨a, List.mem_append_right _ (List.mem_singleton_self a), hrefl a⟩
      obtain ⟨b, hb, hab⟩ := hstep
      exact ⟨b, (isPrefix_foldl_addNew l _).subset hb, hab⟩
    · exact ih ha

/-- Nothing with a property is added if no element has it. -/
theorem filter_foldl_addNew {p : α → Bool} (h : ∀ a ∈ l, p a = false) :
    (l.foldl (addNew similar) kept).filter p = kept.filter p := by
  induction l generalizing kept with
  | nil => rfl
  | cons c l ih =>
    rw [List.foldl_cons, ih fun a ha => h a (List.mem_cons_of_mem c ha), addNew]
    split_ifs
    · rfl
    · rw [List.filter_append, List.filter_cons_of_neg (by simp [h c List.mem_cons_self]),
        List.filter_nil, List.append_nil]

end Firsts

/-! ### Lists whose members are related

Two lists are related if they are equally long and their members are, one by one. Relations compose,
sums are taken member by member, and what holds of related members is decided by those of the first
list alone if it does not depend on the others. -/

open List

variable {α β γ M : Type*} {R : α → β → Prop} {S : β → γ → Prop} {l : List α} {l' : List β}

theorem forall₂_comp {l'' : List γ} (h : Forall₂ R l l') (h' : Forall₂ S l' l'') :
    Forall₂ (fun a c => ∃ b, R a b ∧ S b c) l l'' := by
  induction h generalizing l'' with
  | nil =>
    rw [forall₂_nil_left_iff.mp h']
    exact .nil
  | cons hab _ ih =>
    obtain ⟨c, rest, hbc, hrest, rfl⟩ := forall₂_cons_left_iff.mp h'
    exact .cons ⟨_, hab, hbc⟩ (ih hrest)

/-- What holds of related members is decided by the members of the first list. -/
theorem forall₂_iff_forall_mem {P : α → β → Prop} {C : α → Prop} (h : Forall₂ R l l')
    (hiff : ∀ a b, R a b → (P a b ↔ C a)) : Forall₂ P l l' ↔ ∀ a ∈ l, C a := by
  induction h with
  | nil => simp
  | cons hab _ ih => rw [forall₂_cons, forall_mem_cons, hiff _ _ hab, ih]

theorem sum_map_eq_of_forall₂ [AddMonoid M] {f : α → M} {g : β → M} (h : Forall₂ R l l')
    (heq : ∀ a b, R a b → f a = g b) : (l.map f).sum = (l'.map g).sum := by
  induction h with
  | nil => rfl
  | cons hab _ ih => rw [map_cons, map_cons, sum_cons, sum_cons, heq _ _ hab, ih]

/-! ### Merging neighbours

A list is cut into steps, from left to right. A step takes an item alone, or with the one after it
if the two merge. If a merged step is counted as its first item twice, the count of all steps is
that of the list exactly when the first items of the merged steps count as much as the second ones. -/

variable {α M : Type*} {merges : α → α → Bool}

/-- The steps of a list, each with the item that is merged with its first one. -/
def mergeSteps (merges : α → α → Bool) : List α → List (α × Option α)
  | [] => []
  | [a] => [(a, none)]
  | a :: b :: rest =>
    if merges a b then (a, some b) :: mergeSteps merges rest
    else (a, none) :: mergeSteps merges (b :: rest)

/-- What a function of the two items of merged steps adds up to. -/
def sumMerged [AddCommMonoid M] (f : α → α → M) (steps : List (α × Option α)) : M :=
  (steps.map fun s => s.2.elim 0 (f s.1)).sum

/-- The steps add up to the list. -/
theorem sum_mergeSteps [AddCommMonoid M] (merges : α → α → Bool) (weight : α → M) (l : List α) :
    ((mergeSteps merges l).map fun s => weight s.1 + s.2.elim 0 weight).sum =
      (l.map weight).sum := by
  induction l using mergeSteps.induct merges with
  | case1 => rfl
  | case2 a => simp [mergeSteps]
  | case3 a b rest hmerges ih => simp [mergeSteps, hmerges, ih, add_assoc]
  | case4 a b rest hmerges ih => simp [mergeSteps, hmerges, ih]

/-- Counting the first item of a merged step twice is counting the list exactly when the first and
the second items of the merged steps count as much. -/
theorem sum_doubled_mergeSteps [AddCancelCommMonoid M] (weight : α → M) (l : List α) :
    ((mergeSteps merges l).map fun s => weight s.1 + s.2.elim 0 fun _ => weight s.1).sum =
        (l.map weight).sum ↔
      sumMerged (fun a _ => weight a) (mergeSteps merges l) =
        sumMerged (fun _ b => weight b) (mergeSteps merges l) := by
  rw [← sum_mergeSteps merges weight l, List.sum_map_add, List.sum_map_add, add_right_inj]
  rfl

end NpuArc
