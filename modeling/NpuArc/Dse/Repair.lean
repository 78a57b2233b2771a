import NpuArc.Dse.Space

/-!
# Checks and repairs

A combination is rejected by the first constraint that it breaks, and the exclusion names
one axis of this constraint. A repair overwrites axes that a combination has with values
that constraints require, so it keeps the axes, and a value that it takes away is the
original of one of its changes.
-/

namespace NpuArc

namespace Dse

variable {V : Type} [PyStrings V] {combo combo' : Combo V} {cs : List (Constraint V)}

/-! ### The first broken constraint -/

/-- Whether a combination triggers a constraint and violates it. -/
def Constraint.broken (c : Constraint V) (combo : Combo V) : Bool :=
  c.matchesCombo combo && (!(c.requireViolations combo).isEmpty || c.excludes combo)

/-- The axis that the exclusion of a broken constraint names: the first one that violates a
requirement, or else the first one of the condition. -/
def Constraint.blamedAxis (c : Constraint V) (combo : Combo V) : String :=
  (c.requireViolations combo).head?.getD (c.when.keys.head?.getD "")

/-- The first constraint that a combination breaks. -/
def firstBroken (cs : List (Constraint V)) (combo : Combo V) : Option (Constraint V) :=
  cs.find? fun c => c.broken combo

namespace DesignSpace

theorem isValid_iff : isValid cs combo = true ↔ firstBroken cs combo = none := by
  induction cs with
  | nil => simp [isValid, firstBroken]
  | cons c cs ih =>
    unfold firstBroken at ih ⊢
    rw [isValid, List.find?_cons]
    cases hviolations : c.requireViolations combo with
    | nil =>
      cases hmatches : c.matchesCombo combo <;> cases hexcludes : c.excludes combo <;>
        simp [Constraint.broken, hmatches, hviolations, hexcludes, ih]
    | cons axis rest =>
      cases hmatches : c.matchesCombo combo <;>
        simp [Constraint.broken, hmatches, hviolations, ih]

theorem check_eq : check cs combo = (firstBroken cs combo).elim (true, none) fun c =>
    (false, some (exclusionOf c combo (c.blamedAxis combo))) := by
  induction cs with
  | nil => rfl
  | cons c cs ih =>
    unfold firstBroken at ih ⊢
    rw [check, List.find?_cons]
    cases hviolations : c.requireViolations combo with
    | nil =>
      cases hmatches : c.matchesCombo combo <;> cases hexcludes : c.excludes combo <;>
        simp [Constraint.broken, Constraint.blamedAxis, hmatches, hviolations, hexcludes, ih]
    | cons axis rest =>
      cases hmatches : c.matchesCombo combo <;>
        simp [Constraint.broken, Constraint.blamedAxis, hmatches, hviolations, ih]

end DesignSpace

/-! ### Combinations with equal values -/

/-- Two combinations have equal values on every axis. -/
def Combo.Agrees (combo combo' : Combo V) : Prop := ∀ a, combo.value a == combo'.value a

section Congruence

variable [EquivBEq V] (h : combo.Agrees combo')

include h

theorem Rule.holds_congr (rule : Rule V) : rule.holds combo = rule.holds combo' := by
  unfold Rule.holds
  simp only [List.contains_congr (h _)]

theorem Constraint.requireViolations_congr (c : Constraint V) :
    c.requireViolations combo = c.requireViolations combo' := by
  unfold Constraint.requireViolations
  simp only [List.contains_congr (h _)]

theorem Constraint.broken_congr (c : Constraint V) : c.broken combo = c.broken combo' := by
  unfold Constraint.broken Constraint.matchesCombo Constraint.excludes
  simp only [Rule.holds_congr h, c.requireViolations_congr h]

/-- Combinations with equal values break the same constraint first. -/
theorem firstBroken_congr (cs : List (Constraint V)) :
    firstBroken cs combo = firstBroken cs combo' := by
  unfold firstBroken
  simp only [Constraint.broken_congr h]

end Congruence

/-! ### Repairs -/

omit [PyStrings V] in
theorem Combo.read_eq_ok {axis : String} {v : V} :
    combo.read axis = .ok v ↔ combo.get? axis = some v := by
  unfold Combo.read
  cases combo.get? axis <;> simp

theorem Combo.value_of_get? {axis : String} {v : V} (h : combo.get? axis = some v) :
    combo.value axis = v := by
  rw [Combo.value, h, Option.getD_some]

theorem Combo.value_insert (axis a : String) (v : V) :
    Combo.value (combo.insert axis v) a = if a = axis then v else combo.value a := by
  unfold Combo.value
  rw [Dict.get?_insert]
  split_ifs <;> rfl

namespace DesignSpace

variable {space : DesignSpace V} {r r' : Repair V} {axis : String} {c : Constraint V}

/-- What one step of a repair can do: nothing, or overwrite an axis with the first value
that a constraint requires there. -/
inductive RepairStep (cs : List (Constraint V)) (r : Repair V) : Repair V → Prop
  | unchanged : RepairStep cs r r
  | fresh : RepairStep cs r { r with changed := false }
  | overwrite {c : Constraint V} {axis : String} {original newValue : V} {rest : List V}
      (hc : c ∈ cs) (hrequire : c.require.get? axis = some (newValue :: rest))
      (hread : r.combo.get? axis = some original) (hne : (original != newValue) = true) :
      RepairStep cs r
        { combo := r.combo.insert axis newValue
          changes := r.changes ++ [{ axis, original, newValue, constraint := c }]
          changed := true }

theorem repairAxis_step (hc : c ∈ cs) (h : repairAxis c r axis = .ok r') :
    RepairStep cs r r' := by
  unfold repairAxis at h
  split at h
  · next newValue rest hrequire =>
    obtain ⟨original, hread, h⟩ := bind_eq_ok.mp h
    split_ifs at h with hne
    · cases h
      exact .overwrite hc hrequire (Combo.read_eq_ok.mp hread) hne
    · cases h
      exact .unchanged
  · cases h
    exact .unchanged

/-- What every step of a repair preserves. -/
def Preserved (cs : List (Constraint V)) (P : Repair V → Prop) : Prop :=
  ∀ r r', RepairStep cs r r' → P r → P r'

theorem repairConstraint_preserved {P : Repair V → Prop} (hP : Preserved cs P) (hc : c ∈ cs)
    (h : repairConstraint r c = .ok r') (hr : P r) : P r' := by
  unfold repairConstraint at h
  split_ifs at h
  · cases h
    exact hr
  · exact foldlM_invariant P h hr fun axis _ r r' hr hstep =>
      hP r r' (repairAxis_step hc hstep) hr

theorem repairRounds_preserved {P : Repair V → Prop} (hP : Preserved cs P) {rounds : ℕ}
    (h : repairRounds cs rounds r = .ok r') (hr : P r) : P r' := by
  induction rounds generalizing r with
  | zero =>
    cases h
    exact hr
  | succ rounds ih =>
    obtain ⟨s, hround, h⟩ := bind_eq_ok.mp h
    have hs : P s := foldlM_invariant P hround (hP r _ .fresh hr) fun c hc r r' hr hstep =>
      repairConstraint_preserved hP hc hstep hr
    split_ifs at h
    · exact ih h hs
    · cases h
      exact hs

/-- What every step preserves holds of a repaired combination and its changes. -/
theorem repair_invariant {P : Repair V → Prop} (hP : Preserved space.constraints P)
    {changes : List (Change V)} (h : space.repair combo = .ok (combo', changes))
    (hstart : P { combo }) : ∃ changed, P { combo := combo', changes, changed } := by
  obtain ⟨r, hrounds, h⟩ := bind_eq_ok.mp h
  cases h
  exact ⟨r.changed, repairRounds_preserved hP hrounds hstart⟩

/-- A repair keeps the axes of a combination. -/
theorem mem_keys_repair {changes : List (Change V)}
    (h : space.repair combo = .ok (combo', changes)) (a : String) :
    a ∈ combo'.keys ↔ a ∈ combo.keys := by
  have hP : Preserved space.constraints fun r => a ∈ r.combo.keys ↔ a ∈ combo.keys := by
    intro r r' hstep hr
    cases hstep with
    | unchanged => exact hr
    | fresh => exact hr
    | overwrite hc hrequire hread hne =>
      rw [Dict.keys_insert_of_mem _ (Dict.mem_keys.mpr ⟨_, hread⟩)]
      exact hr
  obtain ⟨_, hkeys⟩ := repair_invariant hP h Iff.rfl
  exact hkeys

/-- A value of a repaired combination was there before, or it is the first one that some
constraint requires. -/
theorem get?_repair {changes : List (Change V)}
    (h : space.repair combo = .ok (combo', changes)) {a : String} {v : V}
    (hv : combo'.get? a = some v) :
    combo.get? a = some v ∨ ∃ c ∈ space.constraints, ∃ rest, c.require.get? a = some (v :: rest) := by
  have hP : Preserved space.constraints fun r => ∀ v, r.combo.get? a = some v →
      combo.get? a = some v ∨
        ∃ c ∈ space.constraints, ∃ rest, c.require.get? a = some (v :: rest) := by
    intro r r' hstep hr
    cases hstep with
    | unchanged => exact hr
    | fresh => exact hr
    | overwrite hc hrequire hread hne =>
      intro v hv
      rw [Dict.get?_insert] at hv
      split_ifs at hv with ha
      · cases hv
        rw [ha]
        exact Or.inr ⟨_, hc, _, hrequire⟩
      · exact hr v hv
  obtain ⟨_, hvalues⟩ := repair_invariant hP h fun _ hv => Or.inl hv
  exact hvalues v hv

/-- A value that a repair takes away is the original of a change. -/
theorem exists_change_of_repair {changes : List (Change V)}
    (h : space.repair combo = .ok (combo', changes)) {a : String}
    (hlost : combo'.value a ≠ combo.value a) :
    ∃ change ∈ changes, change.axis = a ∧ change.original = combo.value a := by
  have hP : Preserved space.constraints fun r => r.combo.value a = combo.value a ∨
      ∃ change ∈ r.changes, change.axis = a ∧ change.original = combo.value a := by
    intro r r' hstep hr
    cases hstep with
    | unchanged => exact hr
    | fresh => exact hr
    | @overwrite c axis original newValue rest hc hrequire hread hne =>
      rcases hr with hsame | ⟨change, hmem, hchange⟩
      · by_cases ha : a = axis
        · subst ha
          rw [Combo.value_of_get? hread] at hsame
          exact Or.inr ⟨⟨a, original, newValue, c⟩, by simp, rfl, hsame⟩
        · left
          rw [Combo.value_insert, if_neg ha]
          exact hsame
      · exact Or.inr ⟨change, List.mem_append_left _ hmem, hchange⟩
  obtain ⟨_, hor⟩ := repair_invariant hP h (Or.inl rfl)
  exact hor.resolve_left hlost

end DesignSpace

end Dse

end NpuArc
