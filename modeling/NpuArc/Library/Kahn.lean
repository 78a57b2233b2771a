import Mathlib.Data.List.Nodup
import Mathlib.Data.List.Perm.Subperm
import Mathlib.Logic.Function.Basic
import Mathlib.Logic.Relation
import Mathlib.Data.Set.Finite.Lattice
import Mathlib.Order.ConditionallyCompleteLattice.Finset
import Mathlib.Tactic.Common

/-!
# Kahn's algorithm

A queue starts with the nodes without predecessors. A node that leaves the queue lowers the
degrees of its successors, and a successor enters when its degree becomes zero. A node is in
the order or in the queue exactly when its predecessors are in the order. So the order
respects the edges, and it has all nodes when the graph has a ranking. Nodes leave the queue
by their level, and ties of a level are decided by the order of the successor lists.
-/

namespace NpuArc

/-! ### Precedence in a list -/

section Precedes

variable {α : Type*} {l : List α} {a b : α}

/-- An element comes before another one. -/
def Precedes (l : List α) (a b : α) : Prop := ∃ l₁ l₂, l = l₁ ++ b :: l₂ ∧ a ∈ l₁

theorem Precedes.mem (h : Precedes l a b) : a ∈ l ∧ b ∈ l := by
  obtain ⟨l₁, l₂, rfl, ha⟩ := h
  simp [ha]

/-- What holds of all pairs in their order holds of an element and one before it. -/
theorem Precedes.of_pairwise {R : α → α → Prop} (h : Precedes l a b) (hl : l.Pairwise R) :
    R a b := by
  obtain ⟨l₁, l₂, rfl, ha⟩ := h
  exact (List.pairwise_append.mp hl).2.2 a ha b List.mem_cons_self

/-- Related elements are in order where no element is related to one before it. -/
theorem precedes_of_pairwise {R : α → α → Prop} (hl : l.Pairwise fun a b => ¬R b a)
    (ha : a ∈ l) (hb : b ∈ l) (hne : a ≠ b) (hab : R a b) : Precedes l a b := by
  obtain ⟨l₁, l₂, rfl⟩ := List.append_of_mem hb
  refine ⟨l₁, l₂, rfl, ?_⟩
  rcases List.mem_append.mp ha with h₁ | h₂
  · exact h₁
  · have h₂ := (List.mem_cons.mp h₂).resolve_left hne
    rw [List.pairwise_append, List.pairwise_cons] at hl
    exact absurd hab (hl.2.1.1 a h₂)

theorem Precedes.idxOf_lt [DecidableEq α] (h : Precedes l a b) (hl : l.Nodup) :
    l.idxOf a < l.idxOf b := by
  obtain ⟨l₁, l₂, rfl, ha⟩ := h
  have hb : b ∉ l₁ := fun hb => (List.nodup_append.mp hl).2.2 b hb b List.mem_cons_self rfl
  rw [List.idxOf_append_of_mem ha, List.idxOf_append_of_notMem hb]
  have hlt := List.idxOf_lt_length_of_mem ha
  omega

end Precedes

namespace Kahn

variable {α : Type*} [DecidableEq α]

/-! ### The algorithm -/

/-- The degrees of the nodes that are left, and the queue. -/
structure State (α : Type*) where
  degree : α → ℤ
  queue : List α

/-- Lower the degree of a successor, which enters the queue at degree zero. -/
def relax (s : State α) (v : α) : State α :=
  let d := s.degree v - 1
  { degree := Function.update s.degree v d
    queue := if d = 0 then s.queue ++ [v] else s.queue }

/-- Take nodes from the queue until it is empty, for some nodes at most. -/
def run (successors : α → List α) : ℕ → State α → List α
  | 0, _ => []
  | fuel + 1, s =>
    match s.queue with
    | [] => []
    | c :: rest =>
      c :: run successors fuel ((successors c).foldl relax { s with queue := rest })

/-- The degrees that are left at the end. -/
def finalDegree (successors : α → List α) : ℕ → State α → α → ℤ
  | 0, s => s.degree
  | fuel + 1, s =>
    match s.queue with
    | [] => s.degree
    | c :: rest =>
      finalDegree successors fuel ((successors c).foldl relax { s with queue := rest })

/-- A finite graph, with the order in which its nodes and the successors of a node are
listed. -/
structure Graph (α : Type*) where
  nodes : List α
  successors : α → List α
  nodes_nodup : nodes.Nodup
  successors_nodup : ∀ u, (successors u).Nodup
  successors_mem : ∀ u v, v ∈ successors u → u ∈ nodes ∧ v ∈ nodes

namespace Graph

/-- The number of predecessors of a node outside a list. -/
def missing (G : Graph α) (done : List α) (v : α) : ℕ :=
  G.nodes.countP fun u => decide (v ∈ G.successors u) && decide (u ∉ done)

/-- The start of the algorithm: the degree of a node is the number of its predecessors. -/
def start (G : Graph α) : State α where
  degree v := G.missing [] v
  queue := G.nodes.filter fun v => decide ((G.missing [] v : ℤ) = 0)

/-- The order of the algorithm. -/
def order (G : Graph α) : List α := run G.successors G.nodes.length G.start

variable {G : Graph α} {done : List α} {s : State α} {u v c : α}

/-- What holds after some nodes have left the queue. -/
structure Inv (G : Graph α) (done : List α) (s : State α) : Prop where
  nodup : (done ++ s.queue).Nodup
  mem : ∀ v, v ∈ done ++ s.queue ↔ v ∈ G.nodes ∧ ∀ u, v ∈ G.successors u → u ∈ done
  degree : ∀ v, s.degree v = G.missing done v

theorem missing_eq_zero : G.missing done v = 0 ↔ ∀ u, v ∈ G.successors u → u ∈ done := by
  unfold missing
  rw [List.countP_eq_zero]
  constructor
  · intro h u hv
    by_contra hu
    exact h u (G.successors_mem u v hv).1 (by simp [hv, hu])
  · intro h u _ hu
    simp only [Bool.and_eq_true, decide_eq_true_iff] at hu
    exact hu.2 (h u hu.1)

/-- Counting one more member of a list without repetitions. -/
theorem countP_or_eq {l : List α} (hl : l.Nodup) {a : α} (ha : a ∈ l) {p : α → Bool}
    (hp : p a = false) : l.countP (fun x => p x || decide (x = a)) = l.countP p + 1 := by
  induction l with
  | nil => cases ha
  | cons b l ih =>
    rw [List.nodup_cons] at hl
    rw [List.countP_cons, List.countP_cons]
    by_cases hb : b = a
    · subst hb
      have hrest : l.countP (fun x => p x || decide (x = b)) = l.countP p := by
        refine List.countP_congr fun x hx => ?_
        have hne : x ≠ b := fun h => hl.1 (h ▸ hx)
        simp [hne]
      simp [hp, hrest]
    · rw [ih hl.2 ((List.mem_cons.mp ha).resolve_left (Ne.symm hb))]
      simp [hb]
      omega

/-- Finishing a node removes it from the missing predecessors of its successors. -/
theorem missing_append (hc : c ∉ done) (v : α) :
    G.missing done v = G.missing (done ++ [c]) v + if v ∈ G.successors c then 1 else 0 := by
  unfold missing
  by_cases hv : v ∈ G.successors c
  · rw [if_pos hv, ← countP_or_eq G.nodes_nodup (G.successors_mem c v hv).1 (by simp)]
    refine List.countP_congr fun u _ => ?_
    by_cases hu : u = c
    · subst hu
      simp [hv, hc]
    · simp [hu]
  · rw [if_neg hv, Nat.add_zero]
    refine List.countP_congr fun u _ => ?_
    simp only [Bool.and_eq_true, decide_eq_true_iff, List.mem_append, List.mem_singleton, not_or]
    refine and_congr_right fun huv => (and_iff_left ?_).symm
    rintro rfl
    exact hv huv

/-- Relaxing distinct successors lowers the degree of each by one, and those of degree one
enter the queue in their order. -/
theorem foldl_relax {l : List α} (hl : l.Nodup) (s : State α) :
    (∀ v, (l.foldl relax s).degree v = s.degree v - if v ∈ l then 1 else 0) ∧
      (l.foldl relax s).queue = s.queue ++ l.filter fun v => decide (s.degree v = 1) := by
  induction l generalizing s with
  | nil => simp
  | cons a l ih =>
    rw [List.nodup_cons] at hl
    obtain ⟨hdegree, hqueue⟩ := ih hl.2 (relax s a)
    rw [List.foldl_cons]
    constructor
    · intro v
      rw [hdegree, relax]
      by_cases hv : v = a
      · subst hv
        simp [hl.1]
      · simp [hv]
    · have hrest : l.filter (fun v => decide ((relax s a).degree v = 1)) =
          l.filter fun v => decide (s.degree v = 1) := by
        refine List.filter_congr fun v hv => ?_
        have hne : v ≠ a := fun h => hl.1 (h ▸ hv)
        simp only [relax, Function.update_of_ne hne]
      rw [hqueue, hrest, relax, List.filter_cons]
      by_cases hone : s.degree a = 1
      · simp [hone]
      · have hzero : s.degree a - 1 ≠ 0 := by omega
        simp [hone, hzero]

theorem inv_start : G.Inv [] G.start where
  nodup := G.nodes_nodup.filter _
  mem v := by
    rw [List.nil_append, start, List.mem_filter, decide_eq_true_iff, Int.natCast_eq_zero,
      missing_eq_zero]
  degree v := rfl

/-- The nodes that enter the queue after a node. -/
def entering (G : Graph α) (s : State α) (c : α) : List α :=
  (G.successors c).filter fun v => decide (s.degree v = 1)

/-- One node leaves the queue. -/
def next (G : Graph α) (s : State α) (c : α) (rest : List α) : State α :=
  (G.successors c).foldl relax { s with queue := rest }

theorem queue_next (s : State α) (c : α) (rest : List α) :
    (G.next s c rest).queue = rest ++ G.entering s c :=
  (foldl_relax (G.successors_nodup c) _).2

/-- A node enters the queue after its last missing predecessor. -/
theorem Inv.mem_entering (h : G.Inv done s) {rest : List α} (hqueue : s.queue = c :: rest) :
    v ∈ G.entering s c ↔
      v ∈ G.successors c ∧ ∀ u, v ∈ G.successors u → u ∈ done ++ [c] := by
  have hc : c ∉ done := by
    have hnodup := h.nodup
    rw [hqueue, List.nodup_append] at hnodup
    exact fun hmem => hnodup.2.2 c hmem c List.mem_cons_self rfl
  unfold entering
  rw [List.mem_filter, decide_eq_true_iff, h.degree, missing_append hc]
  refine and_congr_right fun hv => ?_
  rw [if_pos hv, ← missing_eq_zero]
  omega

theorem Inv.not_mem_of_entering (h : G.Inv done s) {rest : List α} (hqueue : s.queue = c :: rest)
    (hv : v ∈ G.entering s c) : v ∉ done ++ s.queue := by
  rw [h.mem_entering hqueue] at hv
  intro hmem
  have hc := ((h.mem v).mp hmem).2 c hv.1
  have hnodup := h.nodup
  rw [hqueue, List.nodup_append] at hnodup
  exact hnodup.2.2 c hc c List.mem_cons_self rfl

/-- The sequence of finished and waiting nodes is extended by the entering nodes. -/
theorem append_next {rest : List α} (hqueue : s.queue = c :: rest) :
    (done ++ [c]) ++ (G.next s c rest).queue = (done ++ s.queue) ++ G.entering s c := by
  rw [queue_next, hqueue]
  simp

theorem Inv.next (h : G.Inv done s) {rest : List α} (hqueue : s.queue = c :: rest) :
    G.Inv (done ++ [c]) (G.next s c rest) := by
  have hc : c ∉ done := by
    have hnodup := h.nodup
    rw [hqueue, List.nodup_append] at hnodup
    exact fun hmem => hnodup.2.2 c hmem c List.mem_cons_self rfl
  constructor
  · rw [append_next hqueue, List.nodup_append]
    refine ⟨h.nodup, (G.successors_nodup c).filter _, ?_⟩
    rintro a ha b hb rfl
    exact h.not_mem_of_entering hqueue hb ha
  · intro v
    rw [append_next hqueue, List.mem_append, h.mem, h.mem_entering hqueue]
    constructor
    · rintro (⟨hv, hall⟩ | ⟨hv, hall⟩)
      · exact ⟨hv, fun u hu => List.mem_append_left _ (hall u hu)⟩
      · exact ⟨(G.successors_mem c v hv).2, hall⟩
    · rintro ⟨hv, hall⟩
      by_cases hvc : v ∈ G.successors c
      · exact Or.inr ⟨hvc, hall⟩
      · refine Or.inl ⟨hv, fun u hu => ?_⟩
        rcases List.mem_append.mp (hall u hu) with hdone | hlast
        · exact hdone
        · rw [List.mem_singleton.mp hlast] at hu
          exact absurd hu hvc
  · intro v
    have hdegree := (foldl_relax (G.successors_nodup c) { s with queue := rest }).1 v
    change (G.next s c rest).degree v = s.degree v - _ at hdegree
    rw [hdegree, h.degree, missing_append hc]
    split_ifs <;> push_cast <;> omega

theorem Inv.length_le (h : G.Inv done s) : (done ++ s.queue).length ≤ G.nodes.length :=
  (h.nodup.subperm fun v hv => ((h.mem v).mp hv).1).length_le

/-- What each step preserves, together with the invariant, holds when the queue is empty. -/
theorem run_induction {P : List α → List α → Prop}
    (hstep : ∀ done s c rest, G.Inv done s → s.queue = c :: rest → P done s.queue →
      P (done ++ [c]) (G.next s c rest).queue)
    {fuel : ℕ} (hfuel : G.nodes.length ≤ done.length + fuel) (h : G.Inv done s)
    (hP : P done s.queue) : P (done ++ run G.successors fuel s) [] ∧
      ∃ s', G.Inv (done ++ run G.successors fuel s) s' ∧ s'.queue = [] := by
  induction fuel generalizing done s with
  | zero =>
    have hempty : s.queue = [] := by
      have hlength := h.length_le
      rw [List.length_append] at hlength
      exact List.length_eq_zero_iff.mp (by omega)
    rw [hempty] at hP
    rw [run, List.append_nil]
    exact ⟨hP, s, h, hempty⟩
  | succ fuel ih =>
    cases hqueue : s.queue with
    | nil =>
      rw [hqueue] at hP
      rw [run, hqueue, List.append_nil]
      exact ⟨hP, s, h, hqueue⟩
    | cons c rest =>
      have hrun : run G.successors (fuel + 1) s =
          c :: run G.successors fuel (G.next s c rest) := by
        rw [run, hqueue]
        rfl
      have hsplit : done ++ run G.successors (fuel + 1) s =
          (done ++ [c]) ++ run G.successors fuel (G.next s c rest) := by
        rw [hrun]
        simp
      rw [hsplit]
      apply ih _ (h.next hqueue) (hstep done s c rest h hqueue hP)
      rw [List.length_append, List.length_singleton]
      omega

/-- What each step preserves holds of the order. -/
theorem order_induction {P : List α → List α → Prop}
    (hstep : ∀ done s c rest, G.Inv done s → s.queue = c :: rest → P done s.queue →
      P (done ++ [c]) (G.next s c rest).queue) (hstart : P [] G.start.queue) : P G.order [] :=
  (run_induction hstep (Nat.le_add_left _ _) inv_start hstart).1

/-! ### Soundness and completeness -/

theorem order_nodup_mem (G : Graph α) : G.order.Nodup ∧
    ∀ v, v ∈ G.order ↔ v ∈ G.nodes ∧ ∀ u, v ∈ G.successors u → u ∈ G.order := by
  obtain ⟨s, hinv, hqueue⟩ := (run_induction (G := G) (P := fun _ _ => True)
    (fun _ _ _ _ _ _ _ => trivial) (Nat.le_add_left _ _) inv_start trivial).2
  constructor
  · have hnodup := hinv.nodup
    rw [hqueue, List.append_nil] at hnodup
    exact hnodup
  · intro v
    have hmem := hinv.mem v
    rw [hqueue, List.append_nil] at hmem
    exact hmem

theorem order_subset : G.order ⊆ G.nodes := fun _ hv => ((G.order_nodup_mem.2 _).mp hv).1

/-- The order has every node exactly when it has as many. -/
theorem order_perm_iff : G.order.length = G.nodes.length ↔ G.order.Perm G.nodes := by
  constructor
  · intro hlength
    exact (G.order_nodup_mem.1.subperm order_subset).perm_of_length_le (by omega)
  · exact List.Perm.length_eq

/-- No node of the order comes before one of its predecessors. -/
theorem order_respects (G : Graph α) : G.order.Pairwise fun a b => a ∉ G.successors b := by
  have h := order_induction (G := G)
    (P := fun done queue => (done ++ queue).Pairwise fun a b => a ∉ G.successors b) ?_ ?_
  · rwa [List.append_nil] at h
  · intro done s c rest hinv hqueue hP
    rw [append_next hqueue, List.pairwise_append]
    refine ⟨hP, ?_, ?_⟩
    · apply List.pairwise_of_forall_mem_list
      intro a ha b hb hab
      rw [hinv.mem_entering hqueue] at ha
      have hb' := hinv.not_mem_of_entering hqueue hb
      have hnext := (hinv.next hqueue).nodup
      rw [append_next hqueue] at hnext
      rcases List.mem_append.mp (ha.2 b hab) with hdone | hlast
      · exact hb' (List.mem_append_left _ hdone)
      · rw [List.mem_singleton.mp hlast, hqueue] at hb'
        exact hb' (by simp)
    · intro a ha b hb hab
      have hdone := ((hinv.mem a).mp ha).2 b hab
      exact hinv.not_mem_of_entering hqueue hb (List.mem_append_left _ hdone)
  · rw [List.nil_append]
    apply List.pairwise_of_forall_mem_list
    intro a ha b _ hab
    have hnone := ((inv_start.mem a).mp ha).2 b hab
    cases hnone

/-- A graph with a ranking of its nodes is ordered completely. -/
theorem order_perm_of_rank (rank : α → ℕ)
    (hrank : ∀ u v, v ∈ G.successors u → rank u < rank v) : G.order.Perm G.nodes := by
  have hall : ∀ n v, rank v ≤ n → v ∈ G.nodes → v ∈ G.order := by
    intro n
    induction n with
    | zero =>
      intro v hv hmem
      refine (G.order_nodup_mem.2 v).mpr ⟨hmem, fun u hu => ?_⟩
      have hlt := hrank u v hu
      omega
    | succ n ih =>
      intro v hv hmem
      refine (G.order_nodup_mem.2 v).mpr ⟨hmem, fun u hu => ?_⟩
      have hlt := hrank u v hu
      exact ih u (by omega) (G.successors_mem u v hu).1
  apply (List.perm_ext_iff_of_nodup G.order_nodup_mem.1 G.nodes_nodup).mpr
  exact fun v => ⟨fun hv => order_subset hv, fun hv => hall _ v (Nat.le_refl _) hv⟩

/-! ### Levels -/

/-- A chain of some edges ends in a node. -/
inductive ChainTo (r : α → α → Prop) : ℕ → α → Prop
  | zero (v : α) : ChainTo r 0 v
  | succ {n : ℕ} {u v : α} (hu : ChainTo r n u) (h : r u v) : ChainTo r (n + 1) v

/-- The edges of a graph. -/
def Edge (G : Graph α) (u v : α) : Prop := v ∈ G.successors u

omit [DecidableEq α] in
/-- A chain without its first edge ends in the same node. -/
theorem ChainTo.of_succ {r : α → α → Prop} {n : ℕ} {v : α} (h : ChainTo r (n + 1) v) :
    ChainTo r n v := by
  induction n generalizing v with
  | zero => exact .zero v
  | succ n ih =>
    cases h with
    | succ hu h => exact .succ (ih hu) h

omit [DecidableEq α] in
theorem ChainTo.of_le {r : α → α → Prop} {m n : ℕ} {v : α} (h : ChainTo r n v) (hmn : m ≤ n) :
    ChainTo r m v := by
  induction n with
  | zero => rwa [Nat.le_zero.mp hmn]
  | succ n ih =>
    rcases Nat.le_succ_iff.mp hmn with hle | rfl
    · exact ih h.of_succ hle
    · exact h

/-- The level of a node is the length of the longest chain that ends in it. -/
def IsLevel (r : α → α → Prop) (level : α → ℕ) : Prop := ∀ n v, ChainTo r n v ↔ n ≤ level v

section Levels

omit [DecidableEq α]

variable {r : α → α → Prop} {level : α → ℕ}

/-- A ranked relation has levels. -/
theorem exists_isLevel {rank : α → ℕ} (hrank : ∀ u v, r u v → rank u < rank v) :
    ∃ level, IsLevel r level := by
  classical
  have hbound : ∀ n v, ChainTo r n v → n ≤ rank v := by
    intro n v h
    induction h with
    | zero v => exact Nat.zero_le _
    | succ _ huv ih =>
      have hlt := hrank _ _ huv
      omega
  refine ⟨fun v => Nat.findGreatest (ChainTo r · v) (rank v), fun n v => ?_⟩
  constructor
  · intro h
    exact Nat.le_findGreatest (hbound n v h) h
  · intro h
    have hgreatest : ChainTo r (Nat.findGreatest (ChainTo r · v) (rank v)) v :=
      Nat.findGreatest_spec (P := fun n => ChainTo r n v) (Nat.zero_le _) (.zero v)
    exact hgreatest.of_le h

theorem IsLevel.lt (hlevel : IsLevel r level) {u v : α} (h : r u v) : level u < level v :=
  (hlevel _ v).mp (.succ ((hlevel _ u).mpr (Nat.le_refl _)) h)

/-- A node of positive level has a predecessor on the level below. -/
theorem IsLevel.exists_pred (hlevel : IsLevel r level) {n : ℕ} {v : α} (h : level v = n + 1) :
    ∃ u, r u v ∧ level u = n := by
  cases (hlevel _ v).mpr (Nat.le_of_eq h.symm) with
  | succ hu huv =>
    have hle := (hlevel _ _).mp hu
    have hlt := hlevel.lt huv
    exact ⟨_, huv, by omega⟩

/-- One level is below another exactly when every chain to the one can be outdone by a
longer chain to the other. -/
theorem IsLevel.lt_iff (hlevel : IsLevel r level) {u v : α} :
    level u < level v ↔ ∀ n, ChainTo r n u → ChainTo r (n + 1) v := by
  constructor
  · intro h n hn
    have hle := (hlevel n u).mp hn
    exact (hlevel _ v).mpr (by omega)
  · intro h
    exact (hlevel _ v).mp (h _ ((hlevel _ u).mpr (Nat.le_refl _)))

/-- A chain through all levels up to a node. -/
structure Climb (r : α → α → Prop) (level : α → ℕ) (top : ℕ) (p : ℕ → α) : Prop where
  edge : ∀ i < top, r (p i) (p (i + 1))
  level_eq : ∀ i ≤ top, level (p i) = i

theorem IsLevel.exists_climb (hlevel : IsLevel r level) (v : α) :
    ∃ p, Climb r level (level v) p ∧ p (level v) = v := by
  have hall : ∀ n v, level v = n → ∃ p, Climb r level n p ∧ p n = v := by
    intro n
    induction n with
    | zero =>
      intro v hv
      exact ⟨fun _ => v, ⟨fun i hi => absurd hi (Nat.not_lt_zero i), fun i hi => by omega⟩, rfl⟩
    | succ n ih =>
      intro v hv
      obtain ⟨u, huv, hu⟩ := hlevel.exists_pred hv
      obtain ⟨p, hp, hlast⟩ := ih u hu
      refine ⟨Function.update p (n + 1) v, ⟨fun i hi => ?_, fun i hi => ?_⟩,
        Function.update_self ..⟩
      · rw [Function.update_of_ne (by omega)]
        by_cases hin : i = n
        · subst hin
          rw [Function.update_self, hlast]
          exact huv
        · rw [Function.update_of_ne (by omega)]
          exact hp.edge i (by omega)
      · by_cases hin : i = n + 1
        · subst hin
          rw [Function.update_self]
          exact hv
        · rw [Function.update_of_ne hin]
          exact hp.level_eq i (by omega)
  exact hall _ v rfl

end Levels

variable {level : α → ℕ}

/-- The nodes that have been seen are sorted by level, and the queue has two levels at most. -/
structure Sorted (level : α → ℕ) (done queue : List α) : Prop where
  sorted : (done ++ queue).Pairwise fun a b => level a ≤ level b
  close : ∀ a ∈ queue, ∀ b ∈ queue, level b ≤ level a + 1

omit [DecidableEq α] in
/-- What has left the queue is not above its head, and what waits is at most one level above. -/
theorem Sorted.head {rest : List α} (h : Sorted level done (c :: rest)) :
    (∀ a ∈ done, level a ≤ level c) ∧
      ∀ b ∈ c :: rest, level c ≤ level b ∧ level b ≤ level c + 1 := by
  have hpairwise := h.sorted
  rw [List.pairwise_append, List.pairwise_cons] at hpairwise
  refine ⟨fun a ha => hpairwise.2.2 a ha c List.mem_cons_self, fun b hb => ?_⟩
  refine ⟨?_, h.close c List.mem_cons_self b hb⟩
  rcases List.mem_cons.mp hb with rfl | hb
  · exact Nat.le_refl _
  · exact hpairwise.2.1.1 b hb

/-- A node waits at the start on level zero. -/
theorem level_of_start (hlevel : IsLevel G.Edge level) (hv : v ∈ G.start.queue) :
    level v = 0 := by
  have hnone := ((inv_start.mem v).mp hv).2
  by_contra hne
  obtain ⟨n, hn⟩ : ∃ n, level v = n + 1 := ⟨level v - 1, by omega⟩
  obtain ⟨u, huv, -⟩ := hlevel.exists_pred hn
  cases hnone u huv

/-- A node enters the queue from the level above. -/
theorem level_of_entering (hlevel : IsLevel G.Edge level) (hinv : G.Inv done s)
    {rest : List α} (hqueue : s.queue = c :: rest) (hsorted : Sorted level done s.queue)
    (hv : v ∈ G.entering s c) : level v = level c + 1 := by
  rw [hinv.mem_entering hqueue] at hv
  have hlt : level c < level v := hlevel.lt hv.1
  obtain ⟨n, hn⟩ : ∃ n, level v = n + 1 := ⟨level v - 1, by omega⟩
  obtain ⟨u, huv, hu⟩ := hlevel.exists_pred hn
  have hle : level u ≤ level c := by
    rw [hqueue] at hsorted
    rcases List.mem_append.mp (hv.2 u huv) with hdone | hlast
    · exact hsorted.head.1 u hdone
    · rw [List.mem_singleton.mp hlast]
  omega

theorem Sorted.next (hlevel : IsLevel G.Edge level) (hinv : G.Inv done s) {rest : List α}
    (hqueue : s.queue = c :: rest) (hsorted : Sorted level done s.queue) :
    Sorted level (done ++ [c]) (G.next s c rest).queue := by
  have hentering := fun v => level_of_entering (v := v) hlevel hinv hqueue hsorted
  have hhead : (∀ a ∈ done, level a ≤ level c) ∧
      ∀ b ∈ c :: rest, level c ≤ level b ∧ level b ≤ level c + 1 :=
    Sorted.head (hqueue ▸ hsorted)
  constructor
  · rw [append_next hqueue, List.pairwise_append]
    refine ⟨hsorted.sorted, ?_, ?_⟩
    · apply List.pairwise_of_forall_mem_list
      intro a ha b hb
      rw [hentering a ha, hentering b hb]
    · intro a ha b hb
      rw [hentering b hb]
      rcases List.mem_append.mp ha with hdone | hwait
      · have hle := hhead.1 a hdone
        omega
      · rw [hqueue] at hwait
        exact (hhead.2 a hwait).2
  · rw [queue_next]
    have hbetween : ∀ b ∈ rest ++ G.entering s c, level c ≤ level b ∧ level b ≤ level c + 1 := by
      intro b hb
      rcases List.mem_append.mp hb with hb | hb
      · exact hhead.2 b (List.mem_cons_of_mem c hb)
      · rw [hentering b hb]
        omega
    intro a ha b hb
    have hla := hbetween a ha
    have hlb := hbetween b hb
    omega

/-- The nodes that wait at the start are those of level zero. -/
theorem sorted_start (hlevel : IsLevel G.Edge level) : Sorted level [] G.start.queue := by
  have hzero : ∀ v ∈ G.start.queue, level v = 0 := fun v => level_of_start hlevel
  constructor
  · rw [List.nil_append]
    apply List.pairwise_of_forall_mem_list
    intro a ha b hb
    rw [hzero a ha, hzero b hb]
  · intro a ha b hb
    rw [hzero a ha, hzero b hb]
    omega

/-- The order is sorted by level. -/
theorem order_sorted (hlevel : IsLevel G.Edge level) :
    G.order.Pairwise fun a b => level a ≤ level b := by
  have h := order_induction (G := G) (P := Sorted level)
    (fun _ _ _ _ hinv hqueue hP => hP.next hlevel hinv hqueue) (sorted_start hlevel)
  have hsorted := h.sorted
  rwa [List.append_nil] at hsorted

/-! ### Ties -/

/-- A list where nothing but members of a climb follows a member of it. -/
def ClimbLast (p : ℕ → α) (top : ℕ) (l : List α) : Prop :=
  l.Pairwise fun a b => (∃ i ≤ top, a = p i) → ∃ j ≤ top, b = p j

/-- The members of a climb are the last ones of their levels. -/
def LastOfLevel (level : α → ℕ) (p : ℕ → α) (top : ℕ) (l : List α) : Prop :=
  l.Pairwise fun a b => ∀ i ≤ top, a = p i → i < level b

/-- If the members of a climb are listed last, they are the last ones of their levels in the
order. -/
theorem order_lastOfLevel (hlevel : IsLevel G.Edge level) {p : ℕ → α} {top : ℕ}
    (hp : Climb G.Edge level top p) (hnodes : ClimbLast p top G.nodes)
    (hsuccessors : ∀ u, ClimbLast p top (G.successors u)) :
    LastOfLevel level p top G.order := by
  -- Among distinct nodes of one level, a member of the climb is the only one.
  have htied : ∀ {l : List α} {n : ℕ}, l.Nodup → ClimbLast p top l → (∀ a ∈ l, level a = n) →
      LastOfLevel level p top l := by
    intro l n hnodup hlast hn
    have hboth := (hlast.and hnodup).imp_of_mem (S := fun a b => ∀ i ≤ top, a = p i → i < level b)
      fun {a b} ha hb hab i hi hai => by
        obtain ⟨j, hj, hbj⟩ := hab.1 ⟨i, hi, hai⟩
        have hla := hn a ha
        have hlb := hn b hb
        rw [hai, hp.level_eq i hi] at hla
        rw [hbj, hp.level_eq j hj] at hlb
        exact absurd (by rw [hai, hbj, hla, hlb]) hab.2
    exact hboth
  have h := order_induction (G := G)
    (P := fun done queue => Sorted level done queue ∧ LastOfLevel level p top (done ++ queue)) ?_ ?_
  · have hlast := h.2
    rwa [List.append_nil] at hlast
  · rintro done s c rest hinv hqueue ⟨hsorted, hlast⟩
    refine ⟨hsorted.next hlevel hinv hqueue, ?_⟩
    have hentering := fun v => level_of_entering (v := v) hlevel hinv hqueue hsorted
    rw [append_next hqueue]
    unfold LastOfLevel
    rw [List.pairwise_append]
    refine ⟨hlast, htied ((G.successors_nodup c).filter _)
      ((hsuccessors c).sublist List.filter_sublist) hentering, ?_⟩
    intro a ha b hb i hi hai
    rw [hentering b hb]
    by_contra hlt
    -- A member on the level of the entering nodes entered after its predecessor, which the
    -- current node does not precede on its level.
    have hla : level a ≤ level c + 1 := by
      rw [hqueue] at hsorted ha
      rcases List.mem_append.mp ha with hdone | hwait
      · have hle := hsorted.head.1 a hdone
        omega
      · exact (hsorted.head.2 a hwait).2
    rw [hai, hp.level_eq i hi] at hla
    obtain ⟨j, hj⟩ : ∃ j, i = j + 1 := ⟨i - 1, by omega⟩
    have hedge := hp.edge j (by omega)
    rw [← hj, ← hai] at hedge
    have hdone : p j ∈ done := ((hinv.mem a).mp ha).2 _ hedge
    have hpairwise := hlast
    unfold LastOfLevel at hpairwise
    rw [hqueue, List.pairwise_append] at hpairwise
    have hlt' := hpairwise.2.2 (p j) hdone c List.mem_cons_self j (by omega) rfl
    omega
  · refine ⟨sorted_start hlevel, ?_⟩
    rw [List.nil_append]
    exact htied (n := 0) (G.nodes_nodup.filter _) (hnodes.sublist List.filter_sublist)
      fun v => level_of_start hlevel

end Graph

end Kahn

end NpuArc
