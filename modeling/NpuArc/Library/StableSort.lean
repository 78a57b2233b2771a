import Mathlib.Data.List.Sort
import Mathlib.Data.List.TakeWhile

/-!
# Sorting with ties

A stable sort leaves tied elements in their input order, so permuting the input permutes
ties and nothing else. What is computed from the sorted list is independent of the input
order as soon as adjacent tied elements may be swapped. Where no two elements tie, the
sorted list itself is independent of it.
-/

namespace NpuArc

namespace TiedSort

variable {α : Type*} {r : α → α → Prop} {a b : α} {l l₁ l₂ : List α}

/-- Two elements that a relation orders both ways. -/
def Tied (r : α → α → Prop) (a b : α) : Prop := r a b ∧ r b a

/-- Lists that differ by swaps of adjacent tied elements. -/
inductive TiedPerm (r : α → α → Prop) : List α → List α → Prop
  | nil : TiedPerm r [] []
  | cons (a : α) {l₁ l₂ : List α} (h : TiedPerm r l₁ l₂) : TiedPerm r (a :: l₁) (a :: l₂)
  | swap {a b : α} (h : Tied r a b) (l : List α) : TiedPerm r (a :: b :: l) (b :: a :: l)
  | trans {l₁ l₂ l₃ : List α} (h : TiedPerm r l₁ l₂) (h' : TiedPerm r l₂ l₃) : TiedPerm r l₁ l₃

theorem TiedPerm.refl (l : List α) : TiedPerm r l l := by
  induction l with
  | nil => exact .nil
  | cons a l ih => exact .cons a ih

theorem TiedPerm.perm (h : TiedPerm r l₁ l₂) : l₁.Perm l₂ := by
  induction h with
  | nil => exact .nil
  | cons a _ ih => exact ih.cons a
  | swap _ l => exact .swap _ _ l
  | trans _ _ ih₁ ih₂ => exact ih₁.trans ih₂

/-- An element moves past elements that it ties with. -/
private theorem TiedPerm.move (h : ∀ b ∈ l₁, Tied r a b) :
    TiedPerm r (a :: (l₁ ++ l₂)) (l₁ ++ a :: l₂) := by
  induction l₁ with
  | nil => exact .refl _
  | cons b l₁ ih =>
    rw [List.forall_mem_cons] at h
    exact (TiedPerm.swap h.1 _).trans (.cons b (ih h.2))

/-- Two sorted permutations of one list differ by swaps of adjacent tied elements. -/
theorem TiedPerm.of_pairwise (hperm : l₁.Perm l₂) (h₁ : l₁.Pairwise r)
    (h₂ : l₂.Pairwise r) : TiedPerm r l₁ l₂ := by
  induction l₁ generalizing l₂ with
  | nil =>
    cases hperm.nil_eq
    exact .nil
  | cons a l₁ ih =>
    rw [List.pairwise_cons] at h₁
    obtain ⟨before, after, rfl⟩ := List.append_of_mem (hperm.mem_iff.mp List.mem_cons_self)
    have hrest : l₁.Perm (before ++ after) := (hperm.trans List.perm_middle).cons_inv
    rw [List.pairwise_append] at h₂
    obtain ⟨hbefore, hafter, hacross⟩ := h₂
    have hties : ∀ b ∈ before, Tied r a b := by
      intro b hb
      constructor
      · exact h₁.1 b (hrest.mem_iff.mpr (List.mem_append_left _ hb))
      · exact hacross b hb a List.mem_cons_self
    have hsorted : (before ++ after).Pairwise r := by
      rw [List.pairwise_append]
      exact ⟨hbefore, hafter.of_cons, fun b hb c hc => hacross b hb c (List.mem_cons_of_mem a hc)⟩
    exact (TiedPerm.cons a (ih hrest h₁.2 hsorted)).trans (.move hties)

variable [DecidableRel r]

/-- Inserting two elements that do not tie commutes. -/
theorem orderedInsert_comm (htotal : ∀ a b, r a b ∨ r b a) (htrans : ∀ a b c, r a b → r b c → r a c)
    (hne : ¬Tied r a b) (l : List α) :
    (l.orderedInsert r b).orderedInsert r a = (l.orderedInsert r a).orderedInsert r b := by
  induction l with
  | nil =>
    rcases htotal a b with hab | hba
    · have hba : ¬r b a := fun hba => hne ⟨hab, hba⟩
      simp [hab, hba]
    · have hab : ¬r a b := fun hab => hne ⟨hab, hba⟩
      simp [hab, hba]
  | cons c l ih =>
    by_cases hac : r a c
    · by_cases hbc : r b c
      · rcases htotal a b with hab | hba
        · have hba : ¬r b a := fun hba => hne ⟨hab, hba⟩
          simp [hac, hbc, hab, hba]
        · have hab : ¬r a b := fun hab => hne ⟨hab, hba⟩
          simp [hac, hbc, hab, hba]
      · have hba : ¬r b a := fun hba => hbc (htrans b a c hba hac)
        simp [hac, hbc, hba]
    · by_cases hbc : r b c
      · have hab : ¬r a b := fun hab => hac (htrans a b c hab hbc)
        simp [hac, hbc, hab]
      · simp [hac, hbc, ih]

/-- Two tied elements in front of a list stay adjacent and in their order when it is sorted. -/
theorem insertionSort_tied (htrans : ∀ a b c, r a b → r b c → r a c) (htied : Tied r a b)
    (l : List α) : ∃ before after, (a :: b :: l).insertionSort r = before ++ a :: b :: after ∧
      (b :: a :: l).insertionSort r = before ++ b :: a :: after := by
  rw [List.insertionSort_cons, List.insertionSort_cons, List.insertionSort_cons,
    List.insertionSort_cons]
  induction l.insertionSort r with
  | nil => exact ⟨[], [], by simp [htied.1], by simp [htied.2]⟩
  | cons c l ih =>
    have hac : r a c ↔ r b c := ⟨htrans b a c htied.2, htrans a b c htied.1⟩
    by_cases hbc : r b c
    · exact ⟨[], c :: l, by simp [hbc, htied.1], by simp [hac.mpr hbc, htied.2]⟩
    · obtain ⟨before, after, hab, hba⟩ := ih
      have hac : ¬r a c := fun h => hbc (hac.mp h)
      refine ⟨c :: before, after, ?_, ?_⟩
      · simp [hac, hbc, hab]
      · simp [hac, hbc, hba]

/-- Permuting elements that do not tie, in front of others, does not change the sorted
list. -/
theorem insertionSort_append_eq (htotal : ∀ a b, r a b ∨ r b a)
    (htrans : ∀ a b c, r a b → r b c → r a c) (hperm : l₁.Perm l₂)
    (hties : ∀ a ∈ l₁, ∀ b ∈ l₁, Tied r a b → a = b) :
    (l₁ ++ l).insertionSort r = (l₂ ++ l).insertionSort r := by
  unfold List.insertionSort
  rw [List.foldr_append, List.foldr_append]
  apply hperm.foldr_eq'
  intro a ha b hb z
  by_cases heq : a = b
  · rw [heq]
  · exact (orderedInsert_comm htotal htrans (fun h => heq (hties b hb a ha h).symm) z)

/-- Inserting into a sorted list that contains an element, and into the same list without
this element. -/
private theorem orderedInsert_append_cons (htrans : ∀ a b c, r a b → r b c → r a c) {c : α}
    {s₁ s₂ : List α} (hsorted : (s₁ ++ a :: s₂).Pairwise r) :
    ∃ t₁ t₂, (s₁ ++ a :: s₂).orderedInsert r c = t₁ ++ a :: t₂ ∧
      (s₁ ++ s₂).orderedInsert r c = t₁ ++ t₂ := by
  induction s₁ with
  | nil =>
    rw [List.nil_append, List.pairwise_cons] at hsorted
    by_cases hca : r c a
    · refine ⟨[c], s₂, by simp [hca], ?_⟩
      cases s₂ with
      | nil => rfl
      | cons b s₂ => simp [htrans c a b hca (hsorted.1 b List.mem_cons_self)]
    · exact ⟨[], s₂.orderedInsert r c, by simp [hca], rfl⟩
  | cons b s₁ ih =>
    rw [List.cons_append, List.pairwise_cons] at hsorted
    by_cases hcb : r c b
    · exact ⟨c :: b :: s₁, s₂, by simp [hcb], by simp [hcb]⟩
    · obtain ⟨t₁, t₂, hwith, hwithout⟩ := ih hsorted.2
      exact ⟨b :: t₁, t₂, by simp [hcb, hwith], by simp [hcb, hwithout]⟩

/-- A further element of a list finds its place between the others, which keep theirs. -/
theorem insertionSort_append_cons (htotal : ∀ a b, r a b ∨ r b a)
    (htrans : ∀ a b c, r a b → r b c → r a c) (a : α) (l₁ l₂ : List α) :
    ∃ s₁ s₂, (l₁ ++ a :: l₂).insertionSort r = s₁ ++ a :: s₂ ∧
      (l₁ ++ l₂).insertionSort r = s₁ ++ s₂ := by
  have : Std.Total r := ⟨htotal⟩
  have : IsTrans α r := ⟨htrans⟩
  induction l₁ with
  | nil =>
    refine ⟨(l₂.insertionSort r).takeWhile fun b => decide ¬r a b,
      (l₂.insertionSort r).dropWhile fun b => decide ¬r a b, ?_, ?_⟩
    · rw [List.nil_append, List.insertionSort_cons_eq_take_drop]
    · rw [List.nil_append, List.takeWhile_append_dropWhile]
  | cons c l₁ ih =>
    obtain ⟨s₁, s₂, hwith, hwithout⟩ := ih
    have hsorted := List.pairwise_insertionSort r (l₁ ++ a :: l₂)
    rw [hwith] at hsorted
    rw [List.cons_append, List.cons_append, List.insertionSort_cons, List.insertionSort_cons,
      hwith, hwithout]
    exact orderedInsert_append_cons htrans hsorted

/-- Sorting keeps mutually related elements in their order. -/
theorem filter_insertionSort (l : List α) (p : α → Bool)
    (hp : ∀ a b, p a = true → p b = true → r a b) :
    (l.insertionSort r).filter p = l.filter p := by
  have hpairwise : (l.filter p).Pairwise r := by
    apply List.pairwise_of_forall_mem_list
    intro a ha b hb
    exact hp a b (List.mem_filter.mp ha).2 (List.mem_filter.mp hb).2
  have hsub := (List.sublist_insertionSort hpairwise List.filter_sublist).filter p
  rw [List.filter_filter] at hsub
  simp only [Bool.and_self] at hsub
  refine (hsub.eq_of_length ?_).symm
  exact ((List.perm_insertionSort r l).filter p).length_eq.symm
/-- A list in which what satisfies a predicate comes first is split by the predicate. -/
theorem filter_append_filter_not {p : α → Bool}
    (h : l.Pairwise fun a b => p b = true → p a = true) :
    l.filter p ++ l.filter (fun a => !p a) = l := by
  induction l with
  | nil => rfl
  | cons a l ih =>
    obtain ⟨hhead, htail⟩ := List.pairwise_cons.mp h
    cases ha : p a with
    | true =>
      rw [List.filter_cons_of_pos ha, List.filter_cons_of_neg (by simp [ha]), List.cons_append,
        ih htail]
    | false =>
      have hnone : l.filter p = [] := by
        refine List.filter_eq_nil_iff.mpr fun b hb hpb => ?_
        rw [hhead b hb hpb] at ha
        cases ha
      have hrest := ih htail
      rw [hnone, List.nil_append] at hrest
      rw [List.filter_cons_of_neg (by simp [ha]), List.filter_cons_of_pos (by simp [ha]), hnone,
        List.nil_append, hrest]

end TiedSort

/-! ### Stable sorting by insertion

A list is sorted by descending keys, and elements of one key keep their order. Inserting elements
one after the other, each before the first element with a smaller key, sorts them so. -/

namespace StableSort

variable {α κ : Type*} [LinearOrder κ] {key : α → κ} {l s s' : List α} {a : α}

/-- Whether an element has a key. -/
def hasKey (key : α → κ) (k : κ) (a : α) : Bool := decide (key a = k)

/-- Whether the key of an element is at least some key. -/
def hasKeyFrom (key : α → κ) (k : κ) (a : α) : Bool := decide (k ≤ key a)

theorem hasKey_iff {k : κ} : hasKey key k a = true ↔ key a = k := decide_eq_true_iff

theorem hasKeyFrom_iff {k : κ} : hasKeyFrom key k a = true ↔ k ≤ key a := decide_eq_true_iff

/-- A list in the order of descending keys in which elements of one key keep their order. -/
structure IsStableSort (key : α → κ) (l s : List α) : Prop where
  pairwise : s.Pairwise fun a b => key b ≤ key a
  filter_eq : ∀ k, s.filter (hasKey key k) = l.filter (hasKey key k)

theorem IsStableSort.nil : IsStableSort key [] [] := ⟨List.Pairwise.nil, fun _ => rfl⟩

/-- Insert an element before the first one with a smaller key. -/
def insert (key : α → κ) (a : α) (s : List α) : List α :=
  s.takeWhile (hasKeyFrom key (key a)) ++ a :: s.dropWhile (hasKeyFrom key (key a))

/-- In a sorted list, all elements from the first smaller key on have smaller keys. -/
theorem lt_of_mem_dropWhile (h : s.Pairwise fun a b => key b ≤ key a) {b : α}
    (hb : b ∈ s.dropWhile (hasKeyFrom key (key a))) : key b < key a := by
  induction s with
  | nil => cases hb
  | cons c s ih =>
    obtain ⟨hhead, htail⟩ := List.pairwise_cons.mp h
    by_cases hc : key a ≤ key c
    · rw [List.dropWhile_cons_of_pos (hasKeyFrom_iff.mpr hc)] at hb
      exact ih htail hb
    · rw [List.dropWhile_cons_of_neg (mt hasKeyFrom_iff.mp hc)] at hb
      rcases List.mem_cons.mp hb with rfl | hb
      · exact not_le.mp hc
      · exact (hhead b hb).trans_lt (not_le.mp hc)

theorem le_of_mem_takeWhile {b : α} (hb : b ∈ s.takeWhile (hasKeyFrom key (key a))) :
    key a ≤ key b :=
  hasKeyFrom_iff.mp (List.mem_takeWhile_imp hb)

/-- Insertion of a further element sorts it among the others. -/
theorem IsStableSort.insert (h : IsStableSort key l s) (a : α) :
    IsStableSort key (l ++ [a]) (insert key a s) := by
  have hsplit := List.takeWhile_append_dropWhile (p := hasKeyFrom key (key a)) (l := s)
  have hpairwise := h.pairwise
  rw [← hsplit, List.pairwise_append] at hpairwise
  obtain ⟨htake, hdrop, hcross⟩ := hpairwise
  refine ⟨List.pairwise_append.mpr ⟨htake, List.pairwise_cons.mpr ⟨fun b hb => ?_, hdrop⟩, ?_⟩,
    fun k => ?_⟩
  · exact (lt_of_mem_dropWhile h.pairwise hb).le
  · intro b hb c hc
    rcases List.mem_cons.mp hc with rfl | hc
    · exact le_of_mem_takeWhile hb
    · exact hcross b hb c hc
  · have hfilter := h.filter_eq k
    rw [← hsplit, List.filter_append] at hfilter
    rw [StableSort.insert, List.filter_append, List.filter_append, ← hfilter]
    by_cases hk : key a = k
    · -- Behind the new element all keys are smaller.
      have hnone : (s.dropWhile (hasKeyFrom key (key a))).filter (hasKey key k) = [] := by
        refine List.filter_eq_nil_iff.mpr fun b hb hbk => ?_
        exact (lt_of_mem_dropWhile h.pairwise hb).ne ((hasKey_iff.mp hbk).trans hk.symm)
      rw [List.filter_cons_of_pos (hasKey_iff.mpr hk), hnone, List.append_nil,
        List.filter_cons_of_pos (hasKey_iff.mpr hk), List.filter_nil]
    · have hnot : ¬hasKey key k a = true := mt hasKey_iff.mp hk
      rw [List.filter_cons_of_neg hnot, List.filter_cons_of_neg hnot, List.filter_nil,
        List.append_nil]

/-- Elements that are inserted one after the other are sorted among the others. -/
theorem IsStableSort.foldl_insert (h : IsStableSort key l s) (l' : List α) :
    IsStableSort key (l ++ l') (l'.foldl (fun s a => StableSort.insert key a s) s) := by
  induction l' generalizing l s with
  | nil => rwa [List.append_nil]
  | cons a l' ih =>
    rw [← List.singleton_append, ← List.append_assoc]
    exact ih (h.insert a)

/-- Sorting by insertion from the back is stable. -/
theorem isStableSort_insertionSort (l : List α) :
    IsStableSort key l (l.insertionSort fun a b => key b ≤ key a) := by
  have : Std.Total fun a b : α => key b ≤ key a := ⟨fun a b => le_total (key b) (key a)⟩
  have : IsTrans α fun a b => key b ≤ key a := ⟨fun _ _ _ hab hbc => hbc.trans hab⟩
  refine ⟨List.pairwise_insertionSort _ l, fun k => ?_⟩
  refine TiedSort.filter_insertionSort l _ fun a b ha hb => ?_
  rw [hasKey_iff.mp ha, hasKey_iff.mp hb]

/-- There is one stable order. -/
theorem IsStableSort.unique (h : IsStableSort key l s) (h' : IsStableSort key l s') : s = s' := by
  have hfilter : ∀ k, s.filter (hasKey key k) = s'.filter (hasKey key k) :=
    fun k => (h.filter_eq k).trans (h'.filter_eq k).symm
  have hpairwise := h.pairwise
  have hpairwise' := h'.pairwise
  clear h h'
  have hmem : ∀ {s s' : List α}, (∀ k, s.filter (hasKey key k) =
      s'.filter (hasKey key k)) → ∀ a ∈ s, a ∈ s' := by
    intro s s' hfilter a ha
    have hkey : a ∈ s.filter (hasKey key (key a)) :=
      List.mem_filter.mpr ⟨ha, hasKey_iff.mpr rfl⟩
    rw [hfilter] at hkey
    exact List.mem_of_mem_filter hkey
  induction s generalizing s' with
  | nil =>
    refine (List.eq_nil_iff_forall_not_mem.mpr fun a ha => ?_).symm
    exact List.not_mem_nil (hmem (fun k => (hfilter k).symm) a ha)
  | cons a s ih =>
    cases s' with
    | nil => exact absurd (hmem hfilter a List.mem_cons_self) List.not_mem_nil
    | cons b s' =>
      obtain ⟨hhead, htail⟩ := List.pairwise_cons.mp hpairwise
      obtain ⟨hhead', htail'⟩ := List.pairwise_cons.mp hpairwise'
      -- Both heads have the greatest key, and the first element with it is the same.
      have hkey : key a = key b := by
        refine le_antisymm ?_ ?_
        · rcases List.mem_cons.mp (hmem hfilter a List.mem_cons_self) with rfl | ha
          · exact le_rfl
          · exact hhead' a ha
        · rcases List.mem_cons.mp (hmem (fun k => (hfilter k).symm) b List.mem_cons_self) with
            rfl | hb
          · exact le_rfl
          · exact hhead b hb
      have hab : a = b := by
        have hk := hfilter (key a)
        rw [List.filter_cons_of_pos (hasKey_iff.mpr rfl),
          List.filter_cons_of_pos (hasKey_iff.mpr hkey.symm)] at hk
        exact (List.cons.inj hk).1
      subst hab
      refine congrArg (a :: ·) (ih (fun k => ?_) htail htail')
      have hk := hfilter k
      rw [List.filter_cons, List.filter_cons] at hk
      split_ifs at hk
      · exact (List.cons.inj hk).2
      · exact hk

end StableSort

end NpuArc
