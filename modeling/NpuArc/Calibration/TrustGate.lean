import NpuArc.Library.Dict
import NpuArc.Library.PyFloat
import Mathlib.Data.Finset.Lattice.Fold
import Mathlib.Data.String.Basic

/-!
# The trust gate

A design point uses parameters from a registry of calibrated ones. The gate reports the parameters
that are unknown, less trusted than required, or used outside their range, and the trust in the
point, which is that of its least trusted parameter.
-/

namespace NpuArc

namespace Calibration

/-- Trust level of a physical parameter. -/
inductive TrustLevel
  | t0
  | t1
  | t2
  | t3
  deriving DecidableEq

namespace TrustLevel

def value : TrustLevel → String
  | .t0 => "T0"
  | .t1 => "T1"
  | .t2 => "T2"
  | .t3 => "T3"

/-- Numeric rank for trust level comparison. -/
def rank : TrustLevel → ℕ
  | .t0 => 0
  | .t1 => 1
  | .t2 => 2
  | .t3 => 3

theorem rank_injective : Function.Injective rank := by
  intro a b h
  cases a <;> cases b <;> first | rfl | cases h

/-- Trust levels are ordered by their rank. -/
instance : LinearOrder TrustLevel := LinearOrder.lift' rank rank_injective

instance : OrderTop TrustLevel where
  top := .t3
  le_top a := by
    change a.rank ≤ 3
    cases a <;> decide

theorem le_iff {a b : TrustLevel} : a ≤ b ↔ a.rank ≤ b.rank := Iff.rfl

theorem t0_le (a : TrustLevel) : t0 ≤ a := Nat.zero_le a.rank

theorem t1_le {a : TrustLevel} (h : a ≠ t0) : t1 ≤ a := by
  cases a with
  | t0 => exact absurd rfl h
  | t1 | t2 | t3 => decide

end TrustLevel

/-- One decision-driving calibration parameter. -/
structure CalibrationEntry where
  trustLevel : TrustLevel
  calibrationRange : String
  rangeMin : Option PyFloat := none
  rangeMax : Option PyFloat := none

/-- Whether a value lies inside the range. -/
def CalibrationEntry.isInRange (entry : CalibrationEntry) (actualValue : PyFloat) : Bool :=
  if entry.rangeMin.any fun low => actualValue.lt low then false
  else !entry.rangeMax.any fun high => high.lt actualValue

/-- Calibration entries by their identifiers. -/
abbrev CalibrationRegistry := Dict String CalibrationEntry

/-- A record of a parameter that does not pass. -/
inductive Violation
  | unknownCalibrationId (id : String)
  | trustLevelTooLow (id actualTrust requiredTrust : String)
  | outOfCalibrationRange (id : String) (actualValue : PyFloat) (calibrationRange : String)
  deriving DecidableEq

/-- What a gate is asked about parameters besides their identifiers: their values, the trust that
is required, and what a hardware configuration gives as values of the others. -/
structure GateQuery where
  values : Dict String PyFloat := .empty
  requireTrust : TrustLevel := .t0
  hwValue : Option (String → Option PyFloat) := none

/-- The value of a parameter, if there is one. -/
def GateQuery.actual (query : GateQuery) (id : String) : Option PyFloat :=
  match query.values.get? id with
  | some value => some value
  | none => query.hwValue.bind fun hwValue => hwValue id

/-- The lower of two trust levels. -/
def minTrust (a b : TrustLevel) : TrustLevel := if b.rank < a.rank then b else a

/-- Check one parameter. -/
def checkId (registry : CalibrationRegistry) (query : GateQuery)
    (state : TrustLevel × List Violation) (id : String) : TrustLevel × List Violation :=
  match registry.get? id with
  | none => (minTrust state.1 .t0, state.2 ++ [.unknownCalibrationId id])
  | some entry =>
    let violations :=
      if entry.trustLevel.rank < query.requireTrust.rank then
        state.2 ++ [.trustLevelTooLow id entry.trustLevel.value query.requireTrust.value]
      else state.2
    match query.actual id with
    | some actual =>
      if entry.isInRange actual then (minTrust state.1 entry.trustLevel, violations)
      else (minTrust state.1 .t1,
        violations ++ [.outOfCalibrationRange id actual entry.calibrationRange])
    | none => (minTrust state.1 entry.trustLevel, violations)

/-- The answer of a gate. -/
structure GateResult where
  ok : Bool
  maxTrust : TrustLevel
  violations : List Violation

/-- Check parameters in the order of their identifiers. -/
def check (registry : CalibrationRegistry) (ids : List String) (query : GateQuery) : GateResult :=
  let result := (ids.dedup.mergeSort fun a b => decide (a ≤ b)).foldl (checkId registry query)
    (.t3, [])
  { ok := result.2.isEmpty
    maxTrust := result.1
    violations := result.2 }

/-! ### The fold over the parameters -/

section Fold

variable {registry : CalibrationRegistry} {query : GateQuery} {id : String} {ids : List String}

/-- Whether a value of a parameter lies outside the range of its entry. -/
def OutOfRange (query : GateQuery) (id : String) (entry : CalibrationEntry) : Prop :=
  ∃ actual, query.actual id = some actual ∧ entry.isInRange actual = false

instance (query : GateQuery) (id : String) (entry : CalibrationEntry) :
    Decidable (OutOfRange query id entry) :=
  decidable_of_iff ((query.actual id).any (!entry.isInRange ·) = true) (by
    rw [Option.any_eq_true]
    refine exists_congr fun actual => and_congr_right fun _ => ?_
    rw [Bool.not_eq_true'])

/-- The trust that the gate takes for a parameter. -/
def trustTaken (registry : CalibrationRegistry) (query : GateQuery) (id : String) : TrustLevel :=
  match registry.get? id with
  | none => .t0
  | some entry => if OutOfRange query id entry then .t1 else entry.trustLevel

/-- Whether a parameter is known, trusted enough and not used outside its range. -/
def Passes (registry : CalibrationRegistry) (query : GateQuery) (id : String) : Prop :=
  ∃ entry, registry.get? id = some entry ∧ query.requireTrust ≤ entry.trustLevel ∧
    ∀ actual, query.actual id = some actual → entry.isInRange actual = true

theorem minTrust_eq_min (a b : TrustLevel) : minTrust a b = min a b := by
  unfold minTrust
  split_ifs with h
  · exact (min_eq_right (TrustLevel.le_iff.mpr h.le)).symm
  · exact (min_eq_left (TrustLevel.le_iff.mpr (not_lt.mp h))).symm

/-- A step takes the trust of its parameter, and reports it unless it passes. -/
theorem checkId_spec (state : TrustLevel × List Violation) :
    (checkId registry query state id).1 = min state.1 (trustTaken registry query id) ∧
    ((checkId registry query state id).2 = [] ↔ state.2 = [] ∧ Passes registry query id) := by
  unfold checkId trustTaken
  cases hentry : registry.get? id with
  | none =>
    refine ⟨minTrust_eq_min _ _, iff_of_false (by simp) ?_⟩
    rintro ⟨-, entry, hsome, -⟩
    rw [hentry] at hsome
    cases hsome
  | some entry =>
    have hpasses : Passes registry query id ↔ query.requireTrust ≤ entry.trustLevel ∧
        ¬OutOfRange query id entry := by
      constructor
      · rintro ⟨entry', hsome, htrust, hrange⟩
        obtain rfl := Option.some.inj (hentry.symm.trans hsome)
        refine ⟨htrust, ?_⟩
        rintro ⟨actual, hactual, hout⟩
        rw [hrange actual hactual] at hout
        cases hout
      · rintro ⟨htrust, hrange⟩
        refine ⟨entry, hentry, htrust, fun actual hactual => ?_⟩
        by_contra hout
        exact hrange ⟨actual, hactual, Bool.not_eq_true _ ▸ hout⟩
    have htrust : entry.trustLevel.rank < query.requireTrust.rank ↔
        ¬query.requireTrust ≤ entry.trustLevel := by
      rw [TrustLevel.le_iff, not_le]
    rw [hpasses]
    dsimp only
    have hviolations : ∀ l : List Violation, (if entry.trustLevel.rank < query.requireTrust.rank
        then l ++ [.trustLevelTooLow id entry.trustLevel.value query.requireTrust.value]
        else l) = [] ↔ l = [] ∧ query.requireTrust ≤ entry.trustLevel := by
      intro l
      by_cases hlow : entry.trustLevel.rank < query.requireTrust.rank
      · simp [hlow, htrust.mp hlow]
      · simp [hlow, not_not.mp (mt htrust.mpr hlow)]
    cases hactual : query.actual id with
    | none =>
      have hin : ¬OutOfRange query id entry := by
        rintro ⟨actual, hsome, -⟩
        rw [hactual] at hsome
        cases hsome
      rw [if_neg hin, hviolations, and_iff_left hin]
      exact ⟨minTrust_eq_min _ _, Iff.rfl⟩
    | some actual =>
      have hout : OutOfRange query id entry ↔ entry.isInRange actual = false := by
        rw [OutOfRange, hactual]
        simp
      dsimp only
      by_cases hrange : entry.isInRange actual = true
      · have hin : ¬OutOfRange query id entry := by
          rw [hout, hrange]
          decide
        rw [if_pos hrange, if_neg hin, hviolations, and_iff_left hin]
        exact ⟨minTrust_eq_min _ _, Iff.rfl⟩
      · have hout := hout.mpr (Bool.not_eq_true _ ▸ hrange)
        rw [if_neg hrange, if_pos hout]
        refine ⟨minTrust_eq_min _ _, iff_of_false (by simp) ?_⟩
        rintro ⟨-, -, hin⟩
        exact hin hout

/-- The fold takes the least trust, and reports nothing if every parameter passes. -/
theorem foldl_checkId_spec (l : List String) (state : TrustLevel × List Violation) :
    (l.foldl (checkId registry query) state).1 =
      min state.1 (l.toFinset.inf (trustTaken registry query)) ∧
    ((l.foldl (checkId registry query) state).2 = [] ↔
      state.2 = [] ∧ ∀ id ∈ l, Passes registry query id) := by
  induction l generalizing state with
  | nil => simp
  | cons id l ih =>
    obtain ⟨htrust, hviolations⟩ := ih (checkId registry query state id)
    obtain ⟨htrust', hviolations'⟩ := @checkId_spec registry query id state
    rw [List.foldl_cons, htrust, hviolations, htrust', hviolations', List.toFinset_cons,
      Finset.inf_insert, List.forall_mem_cons, and_assoc, min_assoc]
    exact ⟨rfl, Iff.rfl⟩

/-- The gate takes the least trust of the parameters. -/
theorem check_maxTrust (registry : CalibrationRegistry) (ids : List String) (query : GateQuery) :
    (check registry ids query).maxTrust = ids.toFinset.inf (trustTaken registry query) := by
  have hsame : (ids.dedup.mergeSort fun a b => decide (a ≤ b)).toFinset = ids.toFinset := by
    ext id
    simp
  rw [check, (foldl_checkId_spec _ _).1, hsame]
  exact min_eq_right (le_top : _ ≤ (⊤ : TrustLevel))

/-- The gate is passed if every parameter passes. -/
theorem check_ok_iff (registry : CalibrationRegistry) (ids : List String) (query : GateQuery) :
    (check registry ids query).ok = true ↔ ∀ id ∈ ids, Passes registry query id := by
  rw [check, List.isEmpty_iff, (foldl_checkId_spec _ _).2, and_iff_right rfl]
  simp

/-- A parameter that bounds the trust of a set is in the set. -/
theorem inf_le_t0_iff {f : String → TrustLevel} :
    ids.toFinset.inf f ≤ .t0 ↔ ∃ id ∈ ids, f id = .t0 := by
  have htop : TrustLevel.t0 < ⊤ := by decide
  rw [Finset.inf_le_iff htop]
  refine exists_congr fun id => and_congr List.mem_toFinset ?_
  exact ⟨fun h => le_antisymm h (TrustLevel.t0_le _), fun h => h.le⟩

theorem inf_le_of_mem {f : String → TrustLevel} (h : id ∈ ids) : ids.toFinset.inf f ≤ f id :=
  Finset.inf_le (List.mem_toFinset.mpr h)

end Fold

/-! ### Soundness -/

/-- The trust that a parameter deserves. -/
def trustDue (registry : CalibrationRegistry) (query : GateQuery) (id : String) : TrustLevel :=
  match registry.get? id with
  | none => .t0
  | some entry =>
    if OutOfRange query id entry then min .t1 entry.trustLevel else entry.trustLevel

/-- The query with another value of a parameter. -/
def GateQuery.withValue (query : GateQuery) (id : String) (value : PyFloat) : GateQuery :=
  { query with values := query.values.insert id value }

/-- The gate is passed exactly if all parameters pass, gives the least trust that a parameter
deserves, and does not trust more if a parameter is added or its value is moved out of range. -/
structure GateSound (registry : CalibrationRegistry) (ids : List String) (query : GateQuery) :
    Prop where
  ok_iff : (check registry ids query).ok = true ↔ ∀ id ∈ ids, Passes registry query id
  maxTrust_eq :
    (check registry ids query).maxTrust = ids.toFinset.inf (trustDue registry query)
  add_le : ∀ id, (check registry (id :: ids) query).maxTrust ≤ (check registry ids query).maxTrust
  move_le : ∀ id entry value value', registry.get? id = some entry →
    query.actual id = some value → entry.isInRange value = true →
      entry.isInRange value' = false →
        (check registry ids (query.withValue id value')).maxTrust ≤
          (check registry ids query).maxTrust

/-- Whether a parameter is unknown, or has no trust and is not used outside its range. -/
def Untrusted (registry : CalibrationRegistry) (query : GateQuery) (id : String) : Prop :=
  registry.get? id = none ∨ ∃ entry, registry.get? id = some entry ∧ entry.trustLevel = .t0 ∧
    ¬OutOfRange query id entry

/-- Whether each parameter without trust that has a value and a range to leave is accompanied by
another one that is unknown, or has no trust and is not used outside its range. -/
def UntrustedAccompanied (registry : CalibrationRegistry) (ids : List String)
    (query : GateQuery) : Prop :=
  ∀ id ∈ ids, ∀ entry value value', registry.get? id = some entry → entry.trustLevel = .t0 →
    query.actual id = some value → entry.isInRange value' = false →
      ∃ other ∈ ids, other ≠ id ∧ Untrusted registry query other

section Soundness

variable {registry : CalibrationRegistry} {query : GateQuery} {id : String} {ids : List String}
  {entry : CalibrationEntry}

theorem trustTaken_eq_t0_iff :
    trustTaken registry query id = .t0 ↔ Untrusted registry query id := by
  unfold trustTaken Untrusted
  cases hentry : registry.get? id with
  | none => simp
  | some entry =>
    by_cases hout : OutOfRange query id entry
    · simp [hout]
    · simp [hout]

/-- Outside its range a parameter is taken to have some trust. -/
theorem trustTaken_of_outOfRange (hentry : registry.get? id = some entry)
    (hout : OutOfRange query id entry) : trustTaken registry query id = .t1 := by
  unfold trustTaken
  rw [hentry]
  exact if_pos hout

theorem trustTaken_of_not_outOfRange (hentry : registry.get? id = some entry)
    (hin : ¬OutOfRange query id entry) : trustTaken registry query id = entry.trustLevel := by
  unfold trustTaken
  rw [hentry]
  exact if_neg hin

theorem trustDue_le_trustTaken (registry : CalibrationRegistry) (query : GateQuery)
    (id : String) : trustDue registry query id ≤ trustTaken registry query id := by
  unfold trustDue trustTaken
  cases registry.get? id with
  | none => exact le_rfl
  | some entry =>
    dsimp only
    split_ifs
    · exact min_le_left _ _
    · exact le_rfl

theorem actual_withValue (value : PyFloat) :
    (query.withValue id value).actual id = some value := by
  unfold GateQuery.actual GateQuery.withValue
  simp

theorem actual_withValue_ne {other : String} (h : other ≠ id) (value : PyFloat) :
    (query.withValue id value).actual other = query.actual other := by
  unfold GateQuery.actual GateQuery.withValue
  simp [h]

theorem trustTaken_withValue_ne {other : String} (h : other ≠ id) (value : PyFloat) :
    trustTaken registry (query.withValue id value) other = trustTaken registry query other := by
  have hout : ∀ entry, OutOfRange (query.withValue id value) other entry ↔
      OutOfRange query other entry := by
    intro entry
    unfold OutOfRange
    rw [actual_withValue_ne h]
  unfold trustTaken
  cases registry.get? other with
  | none => rfl
  | some entry => exact if_congr (hout entry) rfl rfl

/-- The gate is sound exactly if each parameter without trust that can be used outside its range is
accompanied by another one that holds the trust down. -/
theorem trustGateSound_iff (registry : CalibrationRegistry) (ids : List String) (query : GateQuery) :
    GateSound registry ids query ↔ UntrustedAccompanied registry ids query := by
  constructor
  · intro h id hid entry value value' hentry htrust hvalue hout'
    by_cases hin : entry.isInRange value = true
    · -- A value in range is moved out of it.
      have hmoved := h.move_le id entry value value' hentry hvalue hin hout'
      have hinRange : ¬OutOfRange query id entry := by
        rintro ⟨actual, hactual, hout⟩
        obtain rfl := Option.some.inj (hvalue.symm.trans hactual)
        rw [hin] at hout
        cases hout
      rw [check_maxTrust, check_maxTrust] at hmoved
      have hlow := hmoved.trans (inf_le_of_mem hid)
      rw [trustTaken_of_not_outOfRange hentry hinRange, htrust] at hlow
      obtain ⟨other, hother, htaken⟩ := inf_le_t0_iff.mp hlow
      have hne : other ≠ id := by
        rintro rfl
        rw [trustTaken_of_outOfRange hentry ⟨value', actual_withValue value', hout'⟩] at htaken
        cases htaken
      rw [trustTaken_withValue_ne hne] at htaken
      exact ⟨other, hother, hne, trustTaken_eq_t0_iff.mp htaken⟩
    · -- A value is out of range already.
      have hout : OutOfRange query id entry := ⟨value, hvalue, Bool.not_eq_true _ ▸ hin⟩
      have hdue : trustDue registry query id = .t0 := by
        unfold trustDue
        rw [hentry]
        dsimp only
        rw [if_pos hout, htrust]
        rfl
      have hlow := inf_le_of_mem (f := trustDue registry query) hid
      rw [← h.maxTrust_eq, check_maxTrust, hdue] at hlow
      obtain ⟨other, hother, htaken⟩ := inf_le_t0_iff.mp hlow
      refine ⟨other, hother, ?_, trustTaken_eq_t0_iff.mp htaken⟩
      rintro rfl
      rw [trustTaken_of_outOfRange hentry hout] at htaken
      cases htaken
  · intro h
    refine ⟨check_ok_iff registry ids query, ?_, fun id => ?_,
      fun id entry value value' hentry hvalue hin hout' => ?_⟩
    · rw [check_maxTrust]
      refine le_antisymm (Finset.le_inf fun id hid => ?_)
        (Finset.inf_mono_fun fun id _ => trustDue_le_trustTaken registry query id)
      rw [List.mem_toFinset] at hid
      cases hentry : registry.get? id with
      | none =>
        have hsame : trustTaken registry query id = trustDue registry query id := by
          unfold trustTaken trustDue
          rw [hentry]
        rw [← hsame]
        exact inf_le_of_mem hid
      | some entry =>
        by_cases hout : OutOfRange query id entry
        · have hdue : trustDue registry query id = min .t1 entry.trustLevel := by
            unfold trustDue
            rw [hentry]
            exact if_pos hout
          rw [hdue]
          by_cases htrust : entry.trustLevel = .t0
          · obtain ⟨value, hvalue, hnot⟩ := hout
            obtain ⟨other, hother, -, huntrusted⟩ :=
              h id hid entry value value hentry htrust hvalue hnot
            exact (inf_le_t0_iff.mpr ⟨other, hother, trustTaken_eq_t0_iff.mpr huntrusted⟩).trans
              (TrustLevel.t0_le _)
          · rw [min_eq_left (TrustLevel.t1_le htrust), ← trustTaken_of_outOfRange hentry hout]
            exact inf_le_of_mem hid
        · have hdue : trustDue registry query id = entry.trustLevel := by
            unfold trustDue
            rw [hentry]
            exact if_neg hout
          rw [hdue, ← trustTaken_of_not_outOfRange hentry hout]
          exact inf_le_of_mem hid
    · rw [check_maxTrust, check_maxTrust, List.toFinset_cons, Finset.inf_insert]
      exact inf_le_right
    · rw [check_maxTrust, check_maxTrust]
      refine Finset.le_inf fun other hother => ?_
      rw [List.mem_toFinset] at hother
      by_cases hne : other = id
      · subst hne
        have hinRange : ¬OutOfRange query other entry := by
          rintro ⟨actual, hactual, hout⟩
          obtain rfl := Option.some.inj (hvalue.symm.trans hactual)
          rw [hin] at hout
          cases hout
        rw [trustTaken_of_not_outOfRange hentry hinRange]
        by_cases htrust : entry.trustLevel = .t0
        · obtain ⟨untrusted, hmem, hne, huntrusted⟩ :=
            h other hother entry value value' hentry htrust hvalue hout'
          have htaken := trustTaken_eq_t0_iff.mpr huntrusted
          rw [← trustTaken_withValue_ne hne value'] at htaken
          exact (inf_le_t0_iff.mpr ⟨untrusted, hmem, htaken⟩).trans (TrustLevel.t0_le _)
        · refine le_trans (inf_le_of_mem hother) ?_
          rw [trustTaken_of_outOfRange hentry ⟨value', actual_withValue value', hout'⟩]
          exact TrustLevel.t1_le htrust
      · rw [← trustTaken_withValue_ne hne value']
        exact inf_le_of_mem hother

end Soundness

/-- A registry with one parameter, which has no trust and is at most one. -/
def untrustedRegistry : CalibrationRegistry :=
  Dict.empty.insert "scale"
    { trustLevel := .t0
      calibrationRange := "at most 1"
      rangeMax := some (.ofRat 1) }

/-- A query with a value of two. -/
def outOfRangeQuery : GateQuery where
  values := Dict.empty.insert "scale" (.ofRat 2)

/-- Outside its range a parameter without trust is trusted more than it deserves. -/
theorem outOfRangeQuery_not_sound :
    ¬GateSound untrustedRegistry ["scale"] outOfRangeQuery := by
  intro h
  have htrust := h.maxTrust_eq
  revert htrust
  decide +kernel

end Calibration

end NpuArc
