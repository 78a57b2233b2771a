import NpuArc.Library.PySlice
import Mathlib.Data.Set.Function
import Mathlib.Data.Set.Lattice
import Mathlib.Order.CompletePartialOrder

/-!
# Actions with a footprint

A patch gives new values to some places of a memory. An action with a footprint looks at some
places and applies a patch that depends on them alone. Two actions that do not write what the
other one reads or writes can be exchanged.
-/

namespace NpuArc

/-- New values for some places. -/
abbrev Patch (ι α : Type*) := ι → Option α

namespace Patch

variable {ι α : Type*} {p q : Patch ι α} {m m' : ι → α}

def apply (p : Patch ι α) (m : ι → α) : ι → α := fun i => (p i).getD (m i)

/-- The places that a patch changes. -/
def support (p : Patch ι α) : Set ι := {i | p i ≠ none}

/-- A patch with its changes to some places only. -/
noncomputable def restrict (p : Patch ι α) (s : Set ι) : Patch ι α :=
  open Classical in fun i => if i ∈ s then p i else none

theorem apply_of_notMem (m : ι → α) {i : ι} (h : i ∉ p.support) : p.apply m i = m i := by
  rw [apply, not_not.mp h, Option.getD_none]

theorem apply_of_mem (m m' : ι → α) {i : ι} (h : i ∈ p.support) : p.apply m i = p.apply m' i := by
  obtain ⟨a, ha⟩ := Option.ne_none_iff_exists'.mp h
  rw [apply, apply, ha, Option.getD_some, Option.getD_some]

theorem support_restrict_subset {s : Set ι} : (p.restrict s).support ⊆ s := by
  intro i hi
  by_contra hnot
  exact hi (if_neg hnot)

/-- Nothing is lost where a patch only gives old values to the other places. -/
theorem apply_restrict {s : Set ι} (h : ∀ i ∉ s, p.apply m i = m i) :
    (p.restrict s).apply m = p.apply m := by
  funext i
  by_cases hi : i ∈ s
  · rw [apply, restrict, if_pos hi]
    rfl
  · rw [h i hi, apply, restrict, if_neg hi, Option.getD_none]

/-- A patch keeps what it does not change. -/
theorem eqOn_apply_self {s : Set ι} (h : Disjoint p.support s) : Set.EqOn (p.apply m) m s :=
  fun _ hi => apply_of_notMem m fun hp => Set.disjoint_left.mp h hp hi

/-- Two patches that change different places can be exchanged. -/
theorem apply_comm (h : Disjoint p.support q.support) (m : ι → α) :
    q.apply (p.apply m) = p.apply (q.apply m) := by
  funext i
  by_cases hp : i ∈ p.support
  · rw [apply_of_notMem _ (Set.disjoint_left.mp h hp)]
    exact apply_of_mem m (q.apply m) hp
  · rw [apply_of_notMem (q.apply m) hp]
    by_cases hq : i ∈ q.support
    · exact apply_of_mem (p.apply m) m hq
    · rw [apply_of_notMem _ hq, apply_of_notMem m hq, apply_of_notMem m hp]

end Patch

/-! ### Patches of arrays -/

namespace Patch

variable {n : ℕ} {α : Type}

/-- The patch that data at some position of an array is. -/
def ofData (lo : ℕ) (data : List α) : Patch (Fin n) α :=
  fun i => if lo ≤ i then data[i.val - lo]? else none

theorem apply_ofData (m : FixedArray n α) (lo : ℕ) (data : List α) :
    (ofData lo data).apply m = m.overwrite lo data := by
  funext i
  unfold apply ofData FixedArray.overwrite
  split_ifs <;> rfl

/-- A write to a slice is the same patch in every array. -/
theorem exists_setSlice {m m' : FixedArray n α} {a b : ℤ} {data : List α}
    (h : m.setSlice a b data = some m') :
    ∃ p : Patch (Fin n) α, ∀ m₂ : FixedArray n α, m₂.setSlice a b data = some (p.apply m₂) := by
  unfold FixedArray.setSlice at h ⊢
  dsimp only at h ⊢
  split_ifs at h ⊢ with hlen hone
  · exact ⟨ofData (sliceBound n a) data, fun m₂ => by rw [apply_ofData]⟩
  · obtain ⟨x, hx, -⟩ := Option.map_eq_some_iff.mp h
    refine ⟨ofData (sliceBound n a) (List.replicate (sliceBound n b - sliceBound n a) x),
      fun m₂ => ?_⟩
    rw [hx, apply_ofData, Option.map_some]
  · cases h

end Patch

/-! ### Actions -/

section Actions

variable {ι α β γ : Type*} {p q : Patch ι α} {m : ι → α} {reads reads' : Set ι} {x : β} {y : γ}

/-- In a memory an action looks at some places, applies a patch and gives a result, and so it
does in every memory that agrees at these places. -/
def Acts (act : (ι → α) → Option ((ι → α) × β)) (m : ι → α) (reads : Set ι) (p : Patch ι α)
    (x : β) : Prop :=
  ∀ m', Set.EqOn m' m reads → act m' = some (p.apply m', x)

variable {act : (ι → α) → Option ((ι → α) × β)} {act' : (ι → α) → Option ((ι → α) × γ)}

/-- An action that keeps the places outside of a set writes in the set. -/
theorem Acts.restrict {s : Set ι} (h : Acts act m reads p x)
    (hkeeps : ∀ m' r, act m' = some r → ∀ i ∉ s, r.1 i = m' i) :
    Acts act m reads (p.restrict s) x := by
  intro m' hm'
  have hact := h m' hm'
  rw [hact, Patch.apply_restrict (hkeeps m' _ hact)]

/-- An action has the same footprint after a patch of places that it does not look at. -/
theorem Acts.patched (h : Acts act m reads p x) (hq : Disjoint q.support reads) :
    Acts act (q.apply m) reads p x :=
  fun m' hm' => h m' (hm'.trans (Patch.eqOn_apply_self hq))

/-- An action has the same footprint before a patch of places that it does not look at. -/
theorem Acts.unpatched (h : Acts act (q.apply m) reads p x) (hq : Disjoint q.support reads) :
    Acts act m reads p x :=
  fun m' hm' => h m' (hm'.trans (Patch.eqOn_apply_self hq).symm)

/-- Actions that do not write what the other one reads or writes can be exchanged. -/
theorem Acts.exchange (h : Acts act m reads p x) (h' : Acts act' (p.apply m) reads' q y)
    (hp : Disjoint p.support reads') (hq : Disjoint q.support reads)
    (hpq : Disjoint p.support q.support) :
    act' m = some (q.apply m, y) ∧ act (q.apply m) = some (q.apply (p.apply m), x) := by
  refine ⟨h'.unpatched hp m (Set.eqOn_refl _ _), ?_⟩
  rw [h.patched hq _ (Set.eqOn_refl _ _), Patch.apply_comm hpq]

end Actions

end NpuArc
