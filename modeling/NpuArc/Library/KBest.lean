import Mathlib.Data.Finset.Card
import Mathlib.Data.Finset.Max
import Mathlib.Data.List.Basic
import Mathlib.Order.Lattice
import Mathlib.Tactic.Common

/-!
# Serving the best

A server with `k` places serves some of the elements that are present. Those of the best `k`
that are not served are owed a place. The lemmas say how their number changes when elements come
and go, and that a place for the best waiting element lowers it by one, also where this element
takes the place of the worst served one.
-/

namespace NpuArc

namespace KBest

variable {ι κ : Type*} [LinearOrder κ] {key : ι → κ} {k : ℕ} {present served : Finset ι}
  {a b p v : ι}

/-- The elements of a set that are better than a given one. -/
def better (key : ι → κ) (s : Finset ι) (p : ι) : Finset ι := s.filter fun q => key q < key p

@[simp] theorem mem_better {s : Finset ι} {q : ι} :
    q ∈ better key s p ↔ q ∈ s ∧ key q < key p := Finset.mem_filter

/-- The best `k` elements of a set: those with fewer than `k` better ones. -/
def best (key : ι → κ) (k : ℕ) (s : Finset ι) : Finset ι :=
  s.filter fun p => (better key s p).card < k

theorem mem_best {s : Finset ι} : p ∈ best key k s ↔ p ∈ s ∧ (better key s p).card < k :=
  Finset.mem_filter

theorem best_subset (s : Finset ι) : best key k s ⊆ s := Finset.filter_subset _ _

theorem better_mono {s t : Finset ι} (h : s ⊆ t) (p : ι) : better key s p ⊆ better key t p :=
  Finset.filter_subset_filter _ h

theorem better_subset {s : Finset ι} {q : ι} (h : key p ≤ key q) :
    better key s p ⊆ better key s q := by
  intro r hr
  rw [mem_better] at hr ⊢
  exact ⟨hr.1, hr.2.trans_le h⟩

/-- What is no worse than one of the best is one of them. -/
theorem mem_best_of_le {s : Finset ι} {q : ι} (hq : q ∈ best key k s) (hp : p ∈ s)
    (h : key p ≤ key q) : p ∈ best key k s :=
  mem_best.mpr ⟨hp, (Finset.card_le_card (better_subset h)).trans_lt (mem_best.mp hq).2⟩

/-- The best are better than all others. -/
theorem lt_of_mem_best (hinj : Function.Injective key) (ha : a ∈ best key k present)
    (hb : b ∈ present) (hnot : b ∉ best key k present) : key a < key b := by
  refine lt_of_le_of_ne (not_lt.mp fun hlt => hnot (mem_best_of_le ha hb hlt.le)) fun heq => ?_
  exact hnot (hinj heq ▸ ha)

variable [DecidableEq ι]

/-- The best elements are as many as there are places, or elements. -/
theorem card_best (hinj : Function.Injective key) (k : ℕ) (s : Finset ι) :
    (best key k s).card = min k s.card := by
  induction s using Finset.induction_on_max_value key with
  | empty => simp [best]
  | insert a s ha hmax ih =>
    have hworst : ∀ q ∈ s, key q < key a := fun q hq =>
      lt_of_le_of_ne (hmax q hq) fun heq => ha (hinj heq ▸ hq)
    have hself : better key (insert a s) a = s := by
      ext q
      rw [mem_better, Finset.mem_insert]
      constructor
      · rintro ⟨rfl | hq, hlt⟩
        · exact absurd hlt (lt_irrefl _)
        · exact hq
      · exact fun hq => ⟨Or.inr hq, hworst q hq⟩
    have hothers : ∀ q ∈ s, better key (insert a s) q = better key s q := by
      intro q hq
      ext r
      rw [mem_better, mem_better, Finset.mem_insert]
      constructor
      · rintro ⟨rfl | hr, hlt⟩
        · exact absurd hlt (hworst q hq).not_gt
        · exact ⟨hr, hlt⟩
      · exact fun h => ⟨Or.inr h.1, h.2⟩
    have hfilter : s.filter (fun p => (better key (insert a s) p).card < k) = best key k s :=
      Finset.filter_congr fun q hq => by rw [hothers q hq]
    rw [best, Finset.filter_insert, hself, hfilter, Finset.card_insert_of_notMem ha]
    split_ifs with hroom
    · rw [Finset.card_insert_of_notMem fun hm => ha (best_subset s hm), ih]
      omega
    · rw [ih]
      omega

/-- Without one element, at most one more element is among the best. -/
theorem card_best_erase_sdiff (hinj : Function.Injective key) (k : ℕ) (s : Finset ι) (a : ι) :
    (best key k (s.erase a) \ best key k s).card ≤ 1 := by
  -- such an element has exactly `k` better ones in the whole set
  have hexact : ∀ p ∈ best key k (s.erase a) \ best key k s,
      p ∈ s ∧ (better key s p).card = k := by
    intro p hp
    obtain ⟨hnew, hold⟩ := Finset.mem_sdiff.mp hp
    obtain ⟨hmem, hlt⟩ := mem_best.mp hnew
    have hs := Finset.mem_of_mem_erase hmem
    have hge : k ≤ (better key s p).card := not_lt.mp fun h => hold (mem_best.mpr ⟨hs, h⟩)
    have hsub : (better key s p).erase a ⊆ better key (s.erase a) p := by
      intro q hq
      obtain ⟨hne, hq⟩ := Finset.mem_erase.mp hq
      rw [mem_better] at hq ⊢
      exact ⟨Finset.mem_erase.mpr ⟨hne, hq.1⟩, hq.2⟩
    have hcard := Finset.card_le_card hsub
    have herase := Finset.pred_card_le_card_erase (s := better key s p) (a := a)
    exact ⟨hs, by omega⟩
  refine Finset.card_le_one.mpr fun p hp q hq => ?_
  obtain ⟨hps, hpk⟩ := hexact p hp
  obtain ⟨hqs, hqk⟩ := hexact q hq
  have hlt : ∀ {p q : ι}, p ∈ s → (better key s p).card = k → (better key s q).card = k →
      ¬key p < key q := by
    intro p q hps hpk hqk hlt
    have hsub : insert p (better key s p) ⊆ better key s q := by
      refine Finset.insert_subset (mem_better.mpr ⟨hps, hlt⟩) (better_subset hlt.le)
    have hcard := Finset.card_le_card hsub
    rw [Finset.card_insert_of_notMem fun h => lt_irrefl _ (mem_better.mp h).2] at hcard
    omega
  exact hinj (le_antisymm (not_lt.mp (hlt hqs hqk hpk)) (not_lt.mp (hlt hps hpk hqk)))

/-- Without an element that is not among the best, these are the same. -/
theorem best_erase_subset (ha : a ∈ present) (hworse : a ∉ best key k present) :
    best key k (present.erase a) ⊆ best key k present := by
  intro p hp
  obtain ⟨hmem, hlt⟩ := mem_best.mp hp
  have hs := Finset.mem_of_mem_erase hmem
  by_contra hnot
  have hge : k ≤ (better key present p).card := not_lt.mp fun h => hnot (mem_best.mpr ⟨hs, h⟩)
  have hga : k ≤ (better key present a).card := not_lt.mp fun h => hworse (mem_best.mpr ⟨ha, h⟩)
  by_cases hap : key a < key p
  · have hsub : better key present a ⊆ better key (present.erase a) p := by
      intro q hq
      rw [mem_better] at hq ⊢
      refine ⟨Finset.mem_erase.mpr ⟨?_, hq.1⟩, hq.2.trans hap⟩
      rintro rfl
      exact lt_irrefl _ hq.2
    have hcard := Finset.card_le_card hsub
    omega
  · have hsub : better key present p ⊆ better key (present.erase a) p := by
      intro q hq
      rw [mem_better] at hq ⊢
      refine ⟨Finset.mem_erase.mpr ⟨?_, hq.1⟩, hq.2⟩
      rintro rfl
      exact hap hq.2
    have hcard := Finset.card_le_card hsub
    omega

/-! ### Coming and going -/

/-- The elements that are owed a place: the best `k` that are not served. -/
def owed (key : ι → κ) (k : ℕ) (present served : Finset ι) : Finset ι :=
  best key k present \ served

/-- Nothing is owed where nothing waits. -/
theorem owed_of_subset (h : present ⊆ served) : owed key k present served = ∅ :=
  Finset.sdiff_eq_empty_iff_subset.mpr ((best_subset present).trans h)

theorem best_insert_subset : best key k (insert a present) ⊆ insert a (best key k present) := by
  intro p hp
  obtain ⟨hmem, hlt⟩ := mem_best.mp hp
  have hsub : better key present p ⊆ better key (insert a present) p :=
    better_mono (Finset.subset_insert a present) p
  have hcard := Finset.card_le_card hsub
  rcases Finset.mem_insert.mp hmem with rfl | hmem
  · exact Finset.mem_insert_self _ _
  · exact Finset.mem_insert_of_mem (mem_best.mpr ⟨hmem, by omega⟩)

/-- A new element adds one to what is owed. -/
theorem card_owed_insert_le :
    (owed key k (insert a present) served).card ≤ (owed key k present served).card + 1 := by
  have hsub : owed key k (insert a present) served ⊆ insert a (owed key k present served) := by
    intro p hp
    obtain ⟨hbest, hidle⟩ := Finset.mem_sdiff.mp hp
    rcases Finset.mem_insert.mp (best_insert_subset hbest) with rfl | hbest
    · exact Finset.mem_insert_self _ _
    · exact Finset.mem_insert_of_mem (Finset.mem_sdiff.mpr ⟨hbest, hidle⟩)
  exact (Finset.card_le_card hsub).trans (Finset.card_insert_le _ _)

/-- When a waiting element leaves, no more is owed. -/
theorem card_owed_erase_le (hinj : Function.Injective key) (ha : a ∉ served) :
    (owed key k (present.erase a) served).card ≤ (owed key k present served).card := by
  by_cases hpresent : a ∈ present
  · by_cases hbest : a ∈ best key k present
    · have howed : a ∈ owed key k present served := Finset.mem_sdiff.mpr ⟨hbest, ha⟩
      have hsub : owed key k (present.erase a) served ⊆ (owed key k present served).erase a ∪
          (best key k (present.erase a) \ best key k present) := by
        intro p hp
        obtain ⟨hp, hidle⟩ := Finset.mem_sdiff.mp hp
        by_cases hold : p ∈ best key k present
        · have hne := Finset.ne_of_mem_erase (mem_best.mp hp).1
          exact Finset.mem_union_left _
            (Finset.mem_erase.mpr ⟨hne, Finset.mem_sdiff.mpr ⟨hold, hidle⟩⟩)
        · exact Finset.mem_union_right _ (Finset.mem_sdiff.mpr ⟨hp, hold⟩)
      have hcard := (Finset.card_le_card hsub).trans (Finset.card_union_le _ _)
      have hone := card_best_erase_sdiff hinj k present a
      have herase := Finset.card_erase_add_one howed
      omega
    · exact Finset.card_le_card
        (Finset.sdiff_subset_sdiff (best_erase_subset hpresent hbest) (Finset.Subset.refl _))
  · rw [Finset.erase_eq_of_notMem hpresent]

/-- When a served element leaves, at most one place more is owed. -/
theorem card_owed_finish_le (hinj : Function.Injective key) :
    (owed key k (present.erase a) (served.erase a)).card ≤
      (owed key k present served).card + 1 := by
  have hsub : owed key k (present.erase a) (served.erase a) ⊆ owed key k present served ∪
      (best key k (present.erase a) \ best key k present) := by
    intro p hp
    obtain ⟨hp, hidle⟩ := Finset.mem_sdiff.mp hp
    by_cases hold : p ∈ best key k present
    · have hne := Finset.ne_of_mem_erase (mem_best.mp hp).1
      exact Finset.mem_union_left _
        (Finset.mem_sdiff.mpr ⟨hold, fun h => hidle (Finset.mem_erase.mpr ⟨hne, h⟩)⟩)
    · exact Finset.mem_union_right _ (Finset.mem_sdiff.mpr ⟨hp, hold⟩)
  have hcard := (Finset.card_le_card hsub).trans (Finset.card_union_le _ _)
  have hone := card_best_erase_sdiff hinj k present a
  omega

/-! ### Granting places -/

/-- What is owed when an element gets a place was owed before, but for that element. -/
theorem owed_insert_subset :
    owed key k (insert b present) (insert b served) ⊆ (owed key k present served).erase b := by
  intro p hp
  obtain ⟨hbest, hidle⟩ := Finset.mem_sdiff.mp hp
  rw [Finset.mem_insert, not_or] at hidle
  have hbest := Finset.mem_of_mem_insert_of_ne (best_insert_subset hbest) hidle.1
  exact Finset.mem_erase.mpr ⟨hidle.1, Finset.mem_sdiff.mpr ⟨hbest, hidle.2⟩⟩

/-- A better element takes the place of the worst served one, where all places are taken. What
is owed then was owed before, but for the new element. -/
theorem owed_displace_subset (hinj : Function.Injective key) (hv : v ∈ served)
    (hworst : ∀ q ∈ served, key q ≤ key v) (hb : key b < key v) (hidle : b ∉ served)
    (hsub : served ⊆ present) (hfull : k ≤ served.card) :
    owed key k (insert b present) (insert b (served.erase v)) ⊆
      (owed key k present served).erase b := by
  intro p hp
  obtain ⟨hbest, hnot⟩ := Finset.mem_sdiff.mp hp
  rw [Finset.mem_insert, not_or] at hnot
  have hpv : p ≠ v := by
    rintro rfl
    -- the displaced element has all served ones before it
    have hbetter : insert b (served.erase p) ⊆ better key (insert b present) p := by
      refine Finset.insert_subset (mem_better.mpr ⟨Finset.mem_insert_self _ _, hb⟩) fun q hq => ?_
      obtain ⟨hne, hq⟩ := Finset.mem_erase.mp hq
      refine mem_better.mpr ⟨Finset.mem_insert_of_mem (hsub hq), ?_⟩
      exact lt_of_le_of_ne (hworst q hq) fun heq => hne (hinj heq)
    have hcard := Finset.card_le_card hbetter
    rw [Finset.card_insert_of_notMem fun h => hidle (Finset.mem_of_mem_erase h),
      Finset.card_erase_add_one hv] at hcard
    have hlt := (mem_best.mp hbest).2
    omega
  have hbest := Finset.mem_of_mem_insert_of_ne (best_insert_subset hbest) hnot.1
  have hwaits : p ∉ served := fun h => hnot.2 (Finset.mem_erase.mpr ⟨hpv, h⟩)
  exact Finset.mem_erase.mpr ⟨hnot.1, Finset.mem_sdiff.mpr ⟨hbest, hwaits⟩⟩

/-- If anything is owed, the best waiting element is. -/
theorem mem_owed_of_least (hb : b ∈ present) (hidle : b ∉ served)
    (hleast : ∀ q ∈ present, q ∉ served → key b ≤ key q)
    (hsome : (owed key k present served).Nonempty) : b ∈ owed key k present served := by
  obtain ⟨p, hp⟩ := hsome
  obtain ⟨hbest, hwaits⟩ := Finset.mem_sdiff.mp hp
  exact Finset.mem_sdiff.mpr
    ⟨mem_best_of_le hbest hb (hleast p (best_subset _ hbest) hwaits), hidle⟩

/-- A place for the best waiting element lowers what is owed by one. -/
theorem card_erase_owed_le (hb : b ∈ present) (hidle : b ∉ served)
    (hleast : ∀ q ∈ present, q ∉ served → key b ≤ key q) :
    ((owed key k present served).erase b).card ≤ (owed key k present served).card - 1 := by
  rcases (owed key k present served).eq_empty_or_nonempty with hnone | hsome
  · rw [hnone, Finset.erase_empty, Finset.card_empty]
  · rw [Finset.card_erase_of_mem (mem_owed_of_least hb hidle hleast hsome)]

/-- Nothing is owed where all places are taken by elements better than the best waiting one. -/
theorem owed_of_full (hleast : ∀ q ∈ present, q ∉ served → key b ≤ key q)
    (hbetter : ∀ q ∈ served, key q < key b) (hsub : served ⊆ present) (hfull : k ≤ served.card) :
    owed key k present served = ∅ := by
  refine Finset.eq_empty_of_forall_notMem fun p hp => ?_
  obtain ⟨hbest, hwaits⟩ := Finset.mem_sdiff.mp hp
  have hsub : served ⊆ better key present p := fun q hq =>
    mem_better.mpr ⟨hsub hq, (hbetter q hq).trans_le (hleast p (best_subset _ hbest) hwaits)⟩
  have hcard := Finset.card_le_card hsub
  have hlt := (mem_best.mp hbest).2
  omega

/-- Where nothing is owed, and no more are served than there are places, the best are served. -/
theorem served_eq_best (hinj : Function.Injective key) (hsub : served ⊆ present)
    (hplaces : served.card ≤ k) (hnone : owed key k present served = ∅) :
    served = best key k present := by
  have hbest := Finset.sdiff_eq_empty_iff_subset.mp hnone
  have hcard := card_best hinj k present
  have hle := Finset.card_le_card hsub
  exact (Finset.eq_of_subset_of_card_le hbest (by omega)).symm

end KBest

/-! ### Ranks in an ascending list

The element at a place of an ascending list has at least the places up to its own below or equal to
it, and a smaller value has at most the places before. -/

variable {α : Type*} [LinearOrder α] {l : List α}

theorem lt_countP_le_getElem (hsorted : l.Pairwise (· ≤ ·)) {i : ℕ} (hi : i < l.length) :
    i < l.countP fun a => decide (a ≤ l[i]) := by
  induction l generalizing i with
  | nil => exact absurd hi (Nat.not_lt_zero i)
  | cons a l ih =>
    obtain ⟨hfirst, hrest⟩ := List.pairwise_cons.mp hsorted
    cases i with
    | zero =>
      rw [List.countP_cons_of_pos (by simp)]
      exact Nat.succ_pos _
    | succ i =>
      rw [List.length_cons, Nat.add_lt_add_iff_right] at hi
      have hle : a ≤ l[i] := hfirst _ (List.getElem_mem hi)
      rw [List.getElem_cons_succ, List.countP_cons_of_pos (by simpa using hle)]
      exact Nat.succ_lt_succ (ih hrest hi)

theorem countP_le_of_lt_getElem (hsorted : l.Pairwise (· ≤ ·)) {i : ℕ} (hi : i < l.length) {v : α}
    (hv : v < l[i]) : (l.countP fun a => decide (a ≤ v)) ≤ i := by
  induction l generalizing i with
  | nil => exact Nat.zero_le i
  | cons a l ih =>
    obtain ⟨hfirst, hrest⟩ := List.pairwise_cons.mp hsorted
    cases i with
    | zero =>
      rw [List.getElem_cons_zero] at hv
      rw [Nat.le_zero, List.countP_eq_zero]
      intro b hb
      have hab : a ≤ b := by
        rcases List.mem_cons.mp hb with rfl | hb
        · exact le_rfl
        · exact hfirst b hb
      simpa using hv.trans_le hab
    | succ i =>
      rw [List.length_cons, Nat.add_lt_add_iff_right] at hi
      rw [List.getElem_cons_succ] at hv
      have hcount := ih hrest hi hv
      rw [List.countP_cons]
      split_ifs <;> omega

end NpuArc
