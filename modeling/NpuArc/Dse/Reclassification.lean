import NpuArc.Library.LastWrite
import NpuArc.Dse.Manifest

/-!
# Reclassification of design points

A run of the manifest is a list of `record` calls, in any order and with any number of
calls on one point. A point is evaluated or successful according to its last call, but the
marks of pruned, failed and filtered points are never taken back. A run therefore
partitions the points exactly when no such mark differs from the last call on its point.

The value sets of an axis are written by the calls on all points with that value, so they
hold what the last of these calls wrote. This agrees with the points only under conditions
on how the calls on different points with one value interleave.
-/

namespace NpuArc

namespace Dse

/-- The classes of the manifest. -/
inductive Outcome
  | success
  | pruned
  | failed
  | filtered
  deriving DecidableEq

/-- A call that classifies a point. -/
structure RecordCall (V H : Type*) where
  outcome : Outcome
  point : DesignPoint V H
  reason : String := ""

namespace AxisCoverage

variable {V : Type*} [BEq V]

/-- What a classification of a point does to the coverage of an axis on which the point
has a value. -/
def record (axis : String) (reason : String) (cov : AxisCoverage V) (v : V) :
    Outcome → AxisCoverage V
  | .success => { cov with
      evaluated := cov.evaluated.insert v, successful := cov.successful.insert v }
  | .pruned => { cov with
      evaluated := cov.evaluated.erase v, successful := cov.successful.erase v
      pruned := cov.pruned.insert v
      exclusions := cov.exclusions ++ [{ axis := axis, value := v, reason := reason }] }
  | .failed => { cov with
      evaluated := cov.evaluated.insert v, failed := cov.failed.insert v }
  | .filtered => { cov with
      evaluated := cov.evaluated.insert v, filtered := cov.filtered.insert v }

/-- What a call does to the coverage of an axis. -/
def step {H : Type*} (axis : String) (cov : AxisCoverage V) (c : RecordCall V H) :
    AxisCoverage V :=
  (c.point.axisValues.get? axis).elim cov fun v => cov.record axis c.reason v c.outcome

end AxisCoverage

namespace CoverageManifest

variable {V H : Type*} [BEq V] {m : CoverageManifest V H}

/-- The classification of a point by one call. -/
def record (m : CoverageManifest V H) (c : RecordCall V H) : CoverageManifest V H :=
  match c.outcome with
  | .success => m.recordSuccess c.point
  | .pruned => m.recordPruned c.point c.reason
  | .failed => m.recordFailed c.point c.reason
  | .filtered => m.recordFiltered c.point c.reason

/-- The manifest after a sequence of calls. -/
def run (m : CoverageManifest V H) (calls : List (RecordCall V H)) : CoverageManifest V H :=
  calls.foldl record m

/-- The ids in a class. -/
def idsOf (m : CoverageManifest V H) : Outcome → EqSet String
  | .success => m.successfulIds
  | .pruned => m.prunedIds
  | .failed => m.failedIds
  | .filtered => m.filteredIds

/-! ### What one call does -/

/-- Coverage updates concern the axes of the point and touch nothing else. -/
theorem get?_eachAxis (f : AxisCoverage V → V → AxisCoverage V) (p : DesignPoint V H)
    (m : CoverageManifest V H) (a : String) :
    (m.eachAxis f p).coverage.get? a =
      (p.axisValues.get? a).elim (m.coverage.get? a) fun v =>
        (m.coverage.get? a).map (f · v) := by
  refine (Dict.get?_foldl_modify f p.axisValues m.coverage a).trans ?_
  cases p.axisValues.get? a <;> rfl

theorem points_record (m : CoverageManifest V H) (c : RecordCall V H) :
    (m.record c).points = m.points := by
  unfold record
  cases c.outcome <;> rfl

theorem evaluatedIds_record (m : CoverageManifest V H) (c : RecordCall V H) :
    (m.record c).evaluatedIds =
      if c.outcome = .pruned then m.evaluatedIds.erase c.point.designPointId
      else m.evaluatedIds.insert c.point.designPointId := by
  unfold record
  cases c.outcome <;> rfl

theorem successfulIds_record (m : CoverageManifest V H) (c : RecordCall V H) :
    (m.record c).successfulIds =
      if c.outcome = .success then m.successfulIds.insert c.point.designPointId
      else m.successfulIds.erase c.point.designPointId := by
  unfold record
  cases c.outcome <;> rfl

/-- The other classes only grow. -/
theorem idsOf_record (m : CoverageManifest V H) (c : RecordCall V H) {o : Outcome}
    (ho : o ≠ .success) : (m.record c).idsOf o =
      if c.outcome = o then (m.idsOf o).insert c.point.designPointId else m.idsOf o := by
  unfold record
  cases c.outcome <;> cases o <;> first | rfl | exact absurd rfl ho

theorem get?_addPointExclusion (p : DesignPoint V H) (reason : String)
    (m : CoverageManifest V H) (a : String) :
    (m.addPointExclusion p reason).coverage.get? a =
      (p.axisValues.get? a).elim (m.coverage.get? a) fun v =>
        (m.coverage.get? a).map fun cov => { cov with
          exclusions := cov.exclusions ++ [{ axis := a, value := v, reason := reason }] } := by
  -- The records are the values of a dictionary with the axes of the point as keys.
  let records : Dict String (ExclusionRecord V) :=
    p.axisValues.mapValues fun axis value => { axis, value, reason }
  have hcoverage : (m.addPointExclusion p reason).coverage = records.entries.foldl
      (fun cov e => cov.modify e.1 fun c => { c with exclusions := c.exclusions ++ [e.2] })
      m.coverage := by
    simp only [records, Dict.mapValues, List.foldl_map]
    rfl
  rw [hcoverage, Dict.get?_foldl_modify
    (fun (cov : AxisCoverage V) e => { cov with exclusions := cov.exclusions ++ [e] }),
    Dict.get?_mapValues]
  cases p.axisValues.get? a <;> rfl

/-- Every axis of the manifest takes its own step. -/
theorem get?_coverage_record (m : CoverageManifest V H) (c : RecordCall V H) (a : String) :
    (m.record c).coverage.get? a = (m.coverage.get? a).map fun cov => cov.step a c := by
  unfold record AxisCoverage.step
  cases c.outcome <;>
    simp only [recordSuccess, recordPruned, recordFailed, recordFiltered, clearSuccessState,
      recordEvaluated, get?_addPointExclusion, get?_eachAxis] <;>
    cases c.point.axisValues.get? a <;> cases m.coverage.get? a <;> rfl

end CoverageManifest

/-! ### What a run of calls does -/

section Runs

variable {V H : Type*}

/-- What a call writes to the class of a point. -/
def onPoint (id : String) (c : RecordCall V H) : Option Outcome :=
  if c.point.designPointId = id then some c.outcome else none

/-- The outcome of the last call on a point. -/
def lastOutcome (calls : List (RecordCall V H)) (id : String) : Option Outcome :=
  LastWrite.last (onPoint id) calls

/-- The outcome of a point that was called is one of a call on it. -/
theorem exists_call_of_lastOutcome {calls : List (RecordCall V H)} {id : String} {o : Outcome}
    (h : lastOutcome calls id = some o) :
    ∃ c ∈ calls, c.point.designPointId = id ∧ c.outcome = o := by
  obtain ⟨c, hc, hw⟩ := LastWrite.exists_of_last h
  unfold onPoint at hw
  split at hw
  · next hid => exact ⟨c, hc, hid, Option.some.inj hw⟩
  · cases hw

theorem exists_lastOutcome {calls : List (RecordCall V H)} {c : RecordCall V H}
    (hc : c ∈ calls) : ∃ o, lastOutcome calls c.point.designPointId = some o :=
  LastWrite.exists_last hc (if_pos rfl)

end Runs

namespace CoverageManifest

variable {V H : Type*} [BEq V] {m : CoverageManifest V H}

theorem points_run (m : CoverageManifest V H) (calls : List (RecordCall V H)) :
    (m.run calls).points = m.points := by
  unfold run
  induction calls generalizing m with
  | nil => rfl
  | cons c calls ih => rw [List.foldl_cons, ih, points_record]

/-- A point is evaluated when its last call is not a pruning. -/
theorem mem_evaluatedIds_run (hm : m.evaluatedIds = .empty) (calls : List (RecordCall V H))
    (id : String) : id ∈ (m.run calls).evaluatedIds ↔
      ∃ o, lastOutcome calls id = some o ∧ o ≠ .pruned := by
  have hrun := LastWrite.foldl_eq_last
    (w := fun c => (onPoint id c).map fun o => decide (o ≠ .pruned)) record
    (fun m => decide (id ∈ m.evaluatedIds)) (fun m c => by
      rw [evaluatedIds_record, onPoint]
      split_ifs <;> grind [EqSet.mem_insert, EqSet.mem_erase]) m calls
  rw [LastWrite.last_map] at hrun
  change decide (id ∈ (m.run calls).evaluatedIds) = ((lastOutcome calls id).map _).getD _ at hrun
  rw [← decide_eq_true_iff (p := id ∈ _), hrun, hm]
  cases lastOutcome calls id <;> simp

/-- A point is successful when its last call is a success. -/
theorem mem_successfulIds_run (hm : m.successfulIds = .empty)
    (calls : List (RecordCall V H)) (id : String) :
    id ∈ (m.run calls).successfulIds ↔ lastOutcome calls id = some .success := by
  have hrun := LastWrite.foldl_eq_last
    (w := fun c => (onPoint id c).map fun o => decide (o = .success)) record
    (fun m => decide (id ∈ m.successfulIds)) (fun m c => by
      rw [successfulIds_record, onPoint]
      split_ifs <;> grind [EqSet.mem_insert, EqSet.mem_erase]) m calls
  rw [LastWrite.last_map] at hrun
  change decide (id ∈ (m.run calls).successfulIds) = ((lastOutcome calls id).map _).getD _ at hrun
  rw [← decide_eq_true_iff (p := id ∈ _), hrun, hm]
  cases lastOutcome calls id <;> simp

/-- The other marks of a point remain from any call on it. -/
theorem mem_idsOf_run {o : Outcome} (ho : o ≠ .success) (hm : m.idsOf o = .empty)
    (calls : List (RecordCall V H)) (id : String) : id ∈ (m.run calls).idsOf o ↔
      ∃ c ∈ calls, c.point.designPointId = id ∧ c.outcome = o := by
  have hrun := LastWrite.foldl_eq_any record (fun m => decide (id ∈ m.idsOf o))
    (fun c => decide (c.point.designPointId = id ∧ c.outcome = o)) (fun m c => by
      rw [idsOf_record m c ho]
      split_ifs <;> grind [EqSet.mem_insert]) m calls
  change decide (id ∈ (m.run calls).idsOf o) = _ at hrun
  rw [← decide_eq_true_iff (p := id ∈ _), hrun, hm]
  simp

/-! ### The partition of the points -/

/-- What the count invariants of the manifest and its classes promise after a run of calls:
every point is in the class of its last call and in no other, and the counts add up. -/
structure Partitioned [LE V] [DecidableLE V] (m : CoverageManifest V H)
    (calls : List (RecordCall V H)) : Prop where
  classes : ∀ p ∈ m.points, ∀ o, p.designPointId ∈ (m.run calls).idsOf o ↔
    lastOutcome calls p.designPointId = some o
  evaluated : (m.run calls).evaluatedCount = (m.run calls).successfulCount +
    (m.run calls).filteredCount + (m.run calls).failedCount
  generated : (∀ p ∈ m.points, ∃ c ∈ calls, c.point.designPointId = p.designPointId) →
    (m.run calls).generatedCount = (m.run calls).evaluatedCount + (m.run calls).prunedCount ∧
      ∀ x ∈ (m.run calls).validate, x.isCount = false

end CoverageManifest

section Partition

variable {V H : Type*}

/-- Every call that prunes, fails or filters a point agrees with the last call on it. -/
def Settled (calls : List (RecordCall V H)) : Prop :=
  ∀ c ∈ calls, c.outcome ≠ .success →
    lastOutcome calls c.point.designPointId = some c.outcome

instance (calls : List (RecordCall V H)) : Decidable (Settled calls) :=
  inferInstanceAs (Decidable (∀ c ∈ calls, c.outcome ≠ .success →
    lastOutcome calls c.point.designPointId = some c.outcome))

end Partition

namespace CoverageManifest

variable {V H : Type*} [BEq V] {m : CoverageManifest V H}

/-- A count of three classes of which every element is in at most one. -/
private theorem countP_eq_add {α : Type*} {p q r s : α → Bool} {l : List α}
    (h : ∀ a ∈ l, (p a).toNat = (q a).toNat + (r a).toNat + (s a).toNat) :
    l.countP p = l.countP q + l.countP r + l.countP s := by
  have hcons : ∀ (p : α → Bool) (a : α) (l : List α),
      (a :: l).countP p = l.countP p + (p a).toNat := by
    intro p a l
    rw [List.countP_cons]
    cases p a <;> rfl
  induction l with
  | nil => rfl
  | cons a l ih =>
    rw [List.forall_mem_cons] at h
    simp only [hcons]
    have hl := ih h.2
    omega

/-- A manifest in which no point is classified. -/
structure Fresh (m : CoverageManifest V H) : Prop where
  evaluatedIds : m.evaluatedIds = .empty
  idsOf : ∀ o, m.idsOf o = .empty

theorem build_fresh (axes : Dict String (AxisSpec V)) (points : List (DesignPoint V H))
    (exclusions : List (ExclusionRecord V)) : (build axes points exclusions).Fresh := by
  have hstart : (requestedOnly axes points exclusions).Fresh :=
    ⟨rfl, fun o => by cases o <;> rfl⟩
  have hgenerated := List.foldlRecOn points addGenerated hstart
    fun _ hm _ _ => ⟨hm.evaluatedIds, hm.idsOf⟩
  exact List.foldlRecOn exclusions addExclusion hgenerated
    fun _ hm _ _ => ⟨hm.evaluatedIds, hm.idsOf⟩

theorem points_build (axes : Dict String (AxisSpec V)) (points : List (DesignPoint V H))
    (exclusions : List (ExclusionRecord V)) : (build axes points exclusions).points = points := by
  have hgenerated := List.foldlRecOn (motive := fun m : CoverageManifest V H => m.points = points)
    points addGenerated (b := requestedOnly axes points exclusions) rfl fun _ hm _ _ => hm
  exact List.foldlRecOn (motive := fun m : CoverageManifest V H => m.points = points)
    exclusions addExclusion hgenerated fun _ hm _ _ => hm

/-- On settled calls every point is exactly in the class of its last call. -/
theorem mem_idsOf_iff_of_settled (hm : m.Fresh) {calls : List (RecordCall V H)}
    (hsettled : Settled calls) (id : String) (o : Outcome) :
    id ∈ (m.run calls).idsOf o ↔ lastOutcome calls id = some o := by
  by_cases ho : o = .success
  · subst ho
    exact mem_successfulIds_run (hm.idsOf .success) calls id
  · rw [mem_idsOf_run ho (hm.idsOf o)]
    constructor
    · rintro ⟨c, hc, rfl, rfl⟩
      exact hsettled c hc ho
    · exact exists_call_of_lastOutcome

/-- Points in the classes of their last calls are counted once. -/
theorem evaluatedCount_of_classes (hm : m.Fresh) {calls : List (RecordCall V H)}
    (hclasses : ∀ p ∈ m.points, ∀ o, p.designPointId ∈ (m.run calls).idsOf o ↔
      lastOutcome calls p.designPointId = some o) :
    (m.run calls).evaluatedCount = (m.run calls).successfulCount +
      (m.run calls).filteredCount + (m.run calls).failedCount := by
  refine countP_eq_add fun p hp => ?_
  rw [points_run] at hp
  have hsuccess : p.designPointId ∈ (m.run calls).successfulIds ↔ _ := hclasses p hp .success
  have hfiltered : p.designPointId ∈ (m.run calls).filteredIds ↔ _ := hclasses p hp .filtered
  have hfailed : p.designPointId ∈ (m.run calls).failedIds ↔ _ := hclasses p hp .failed
  have hevaluated := mem_evaluatedIds_run hm.evaluatedIds calls p.designPointId
  simp only [hsuccess, hfiltered, hfailed, hevaluated]
  cases lastOutcome calls p.designPointId with
  | none => simp
  | some o => cases o <;> simp

/-- Classified points in the classes of their last calls are evaluated or pruned. -/
theorem generatedCount_of_classes (hm : m.Fresh) {calls : List (RecordCall V H)}
    (hclasses : ∀ p ∈ m.points, ∀ o, p.designPointId ∈ (m.run calls).idsOf o ↔
      lastOutcome calls p.designPointId = some o)
    (hall : ∀ p ∈ m.points, ∃ c ∈ calls, c.point.designPointId = p.designPointId) :
    (m.run calls).generatedCount = (m.run calls).evaluatedCount + (m.run calls).prunedCount := by
  have hsum := countP_eq_add (l := (m.run calls).points) (p := fun _ => true)
    (q := fun p => decide (p.designPointId ∈ (m.run calls).evaluatedIds))
    (r := fun p => decide (p.designPointId ∈ (m.run calls).prunedIds))
    (s := fun _ => false) fun p hp => by
      rw [points_run] at hp
      obtain ⟨c, hc, hid⟩ := hall p hp
      obtain ⟨o, ho⟩ := exists_lastOutcome hc
      rw [hid] at ho
      have hpruned : p.designPointId ∈ (m.run calls).prunedIds ↔ _ := hclasses p hp .pruned
      have hevaluated := mem_evaluatedIds_run hm.evaluatedIds calls p.designPointId
      simp only [hpruned, hevaluated, ho]
      cases o <;> simp
  rw [List.countP_true, List.countP_false] at hsum
  exact hsum

/-- A run of calls on the points of a manifest partitions them, as the count invariants
demand, exactly when the calls are settled. -/
theorem partitioned_iff [LE V] [DecidableLE V] (axes : Dict String (AxisSpec V))
    (points : List (DesignPoint V H)) (exclusions : List (ExclusionRecord V))
    (calls : List (RecordCall V H)) (hcalls : ∀ c ∈ calls, c.point ∈ points) :
    (build axes points exclusions).Partitioned calls ↔ Settled calls := by
  have hfresh := build_fresh axes points exclusions
  constructor
  · intro h c hc hne
    have hp : c.point ∈ (build axes points exclusions).points := by
      rw [points_build]
      exact hcalls c hc
    rw [← h.classes c.point hp c.outcome, mem_idsOf_run hne (hfresh.idsOf _)]
    exact ⟨c, hc, rfl, rfl⟩
  · intro hsettled
    have hclasses := fun p (_ : p ∈ (build axes points exclusions).points) =>
      mem_idsOf_iff_of_settled hfresh hsettled p.designPointId
    have hevaluated := evaluatedCount_of_classes hfresh hclasses
    refine ⟨hclasses, hevaluated, fun hall => ?_⟩
    have hgenerated := generatedCount_of_classes hfresh hclasses hall
    refine ⟨hgenerated, fun x hx => ?_⟩
    have hcounts : ((build axes points exclusions).run calls).countViolations = [] := by
      rw [countViolations, if_pos hgenerated, if_pos hevaluated, List.append_nil]
    rw [validate, hcounts, List.nil_append, List.mem_append] at hx
    rcases hx with hx | hx
    · split at hx
      · cases hx
      · rw [List.mem_singleton.mp hx]
        rfl
    · obtain ⟨e, -, he⟩ := List.mem_filterMap.mp hx
      split at he
      · cases he
      · cases he
        rfl

end CoverageManifest

/-! ### The value sets of an axis -/

/-- Whether a point has a value on an axis. -/
def DesignPoint.carries {V H : Type*} [BEq V] (p : DesignPoint V H) (a : String) (v : V) : Bool :=
  (p.axisValues.get? a).any fun w => v == w

section Values

variable {V H : Type*} [BEq V]

/-- A call on a point with a value on an axis. -/
def callOn (a : String) (v : V) (c : RecordCall V H) : Option (RecordCall V H) :=
  if c.point.carries a v then some c else none

/-- The outcome of a call on a point with a value on an axis. -/
def onValue (a : String) (v : V) (c : RecordCall V H) : Option Outcome :=
  (callOn a v c).map (·.outcome)

/-- Whether an outcome adds to or removes from the successful values. -/
def Outcome.isVerdict (o : Outcome) : Bool := decide (o = .success ∨ o = .pruned)

/-- The outcome of the last call on points with a value on an axis. -/
def lastOn (calls : List (RecordCall V H)) (a : String) (v : V) : Option Outcome :=
  LastWrite.last (onValue a v) calls

/-- The last success or pruning among the calls on points with a value on an axis. -/
def lastVerdict (calls : List (RecordCall V H)) (a : String) (v : V) : Option Outcome :=
  LastWrite.last (LastWrite.only Outcome.isVerdict (onValue a v)) calls

/-- When a point with a value ends up evaluated, the last call on points with this value is
not a pruning. -/
def KeepsEvaluated (calls : List (RecordCall V H)) (a : String) (v : V) : Prop :=
  (∃ c ∈ calls, c.point.carries a v ∧
    ∃ o, lastOutcome calls c.point.designPointId = some o ∧ o ≠ .pruned) →
  lastOn calls a v ≠ some .pruned

/-- The last success or pruning of points with a value is a success exactly when a point with
this value ends up successful. -/
def KeepsSuccessful (calls : List (RecordCall V H)) (a : String) (v : V) : Prop :=
  lastVerdict calls a v = some .success ↔ ∃ c ∈ calls, c.point.carries a v ∧
    lastOutcome calls c.point.designPointId = some .success

/-- Calls on one id are calls on one point. -/
def OnePointPerId (calls : List (RecordCall V H)) : Prop :=
  ∀ c ∈ calls, ∀ d ∈ calls, d.point.designPointId = c.point.designPointId → d.point = c.point

omit [BEq V] in
theorem onePointPerId_of_mem {points : List (DesignPoint V H)}
    (hids : (points.map (·.designPointId)).Nodup) {calls : List (RecordCall V H)}
    (hcalls : ∀ c ∈ calls, c.point ∈ points) : OnePointPerId calls :=
  fun c hc d hd hid => List.inj_on_of_nodup_map hids (hcalls d hd) (hcalls c hc) hid

/-- The last call on the points with a value is the last call on its own point. -/
theorem lastOutcome_of_lastOn {calls : List (RecordCall V H)} (hone : OnePointPerId calls)
    {a : String} {v : V} {o : Outcome} (h : lastOn calls a v = some o) :
    ∃ c ∈ calls, c.point.carries a v ∧ lastOutcome calls c.point.designPointId = some o := by
  unfold lastOn onValue at h
  rw [LastWrite.last_map, Option.map_eq_some_iff] at h
  obtain ⟨c, hlast, rfl⟩ := h
  obtain ⟨d, hd, hcall⟩ := LastWrite.exists_of_last hlast
  unfold callOn at hcall
  split at hcall
  · next hcarries =>
    cases hcall
    refine ⟨c, hd, hcarries, ?_⟩
    -- Calls on the point of `c` are among the calls on points with the value.
    have honly := LastWrite.last_only
      (p := fun d => decide (d.point.designPointId = c.point.designPointId)) hlast (by simp)
    have hpoint : ∀ d ∈ calls, onPoint c.point.designPointId d =
        (LastWrite.only (fun d => decide (d.point.designPointId = c.point.designPointId))
          (callOn a v) d).map (·.outcome) := by
      intro d hd'
      unfold onPoint LastWrite.only callOn
      by_cases hid : d.point.designPointId = c.point.designPointId
      · have hpoint := hone c hd d hd' hid
        simp [hpoint, hcarries, Option.filter_some]
      · rw [if_neg hid]
        split <;> simp [hid, Option.filter_some]
    rw [lastOutcome, LastWrite.last_congr hpoint, LastWrite.last_map, honly]
    rfl
  · cases hcall

end Values

namespace AxisCoverage

variable {V H : Type*} [BEq V] [EquivBEq V] {cov : AxisCoverage V}

/-- An axis has a value as evaluated when the last call on it is not a pruning. -/
theorem mem_evaluated_foldl (hcov : cov.evaluated = .empty) (calls : List (RecordCall V H))
    (a : String) (v : V) : v ∈ (calls.foldl (step a) cov).evaluated ↔
      ∃ o, lastOn calls a v = some o ∧ o ≠ .pruned := by
  have hrun := LastWrite.foldl_eq_last
    (w := fun c => (onValue a v c).map fun o => decide (o ≠ .pruned)) (step a)
    (fun cov : AxisCoverage V => decide (v ∈ cov.evaluated)) (fun cov c => by
      unfold step onValue callOn DesignPoint.carries
      cases c.point.axisValues.get? a with
      | none => rfl
      | some w => cases ho : c.outcome <;> cases hvw : v == w <;> simp [record, hvw, ho]) cov calls
  rw [LastWrite.last_map] at hrun
  change _ = ((lastOn calls a v).map _).getD _ at hrun
  rw [← decide_eq_true_iff (p := v ∈ _), hrun, hcov]
  cases lastOn calls a v <;> simp

/-- An axis has a value as successful when the last success or pruning on it is a success. -/
theorem mem_successful_foldl (hcov : cov.successful = .empty) (calls : List (RecordCall V H))
    (a : String) (v : V) : v ∈ (calls.foldl (step a) cov).successful ↔
      lastVerdict calls a v = some .success := by
  have hrun := LastWrite.foldl_eq_last
    (w := fun c => (LastWrite.only Outcome.isVerdict (onValue a v) c).map
      fun o => decide (o = .success)) (step a)
    (fun cov : AxisCoverage V => decide (v ∈ cov.successful)) (fun cov c => by
      unfold step LastWrite.only onValue callOn DesignPoint.carries
      cases c.point.axisValues.get? a with
      | none => rfl
      | some w =>
        cases ho : c.outcome <;> cases hvw : v == w <;>
          simp [record, hvw, ho, Outcome.isVerdict, Option.filter_some] <;> rfl)
    cov calls
  rw [LastWrite.last_map] at hrun
  change _ = ((lastVerdict calls a v).map _).getD _ at hrun
  rw [← decide_eq_true_iff (p := v ∈ _), hrun, hcov]
  cases lastVerdict calls a v <;> simp

end AxisCoverage

namespace CoverageManifest

variable {V H : Type*} [BEq V] {m : CoverageManifest V H}

/-- The values of the points in a set of ids on an axis. -/
def carriedOn (m : CoverageManifest V H) (ids : EqSet String) (a : String) : EqSet V :=
  .ofList ((m.points.filter fun p => decide (p.designPointId ∈ ids)).filterMap
    fun p => p.axisValues.get? a)

/-- The evaluated and successful values of every axis are those of the points that are
evaluated and successful. -/
def AxisSetsExact (m : CoverageManifest V H) : Prop :=
  ∀ a cov, m.coverage.get? a = some cov →
    (∀ v, v ∈ cov.evaluated ↔ v ∈ m.carriedOn m.evaluatedIds a) ∧
      ∀ v, v ∈ cov.successful ↔ v ∈ m.carriedOn m.successfulIds a

/-- Every axis takes its own steps over a run. -/
theorem get?_coverage_run (m : CoverageManifest V H) (calls : List (RecordCall V H))
    (a : String) : (m.run calls).coverage.get? a =
      (m.coverage.get? a).map fun cov => calls.foldl (AxisCoverage.step a) cov := by
  unfold run
  induction calls generalizing m with
  | nil => simp
  | cons c calls ih =>
    rw [List.foldl_cons, ih, get?_coverage_record, Option.map_map]
    rfl

/-- The axes of a fresh manifest are the configured ones, without classified values. -/
structure FreshAxes (axes : Dict String (AxisSpec V)) (m : CoverageManifest V H) : Prop where
  isSome : ∀ a, (m.coverage.get? a).isSome = (axes.get? a).isSome
  sets : ∀ a cov, m.coverage.get? a = some cov →
    cov.evaluated = .empty ∧ cov.successful = .empty

theorem build_freshAxes (axes : Dict String (AxisSpec V)) (points : List (DesignPoint V H))
    (exclusions : List (ExclusionRecord V)) :
    (build axes points exclusions).FreshAxes axes := by
  have hstart : (requestedOnly axes points exclusions).FreshAxes axes := by
    constructor
    · intro a
      rw [requestedOnly, Dict.get?_mapValues, Option.isSome_map]
    · intro a cov hcov
      rw [requestedOnly, Dict.get?_mapValues, Option.map_eq_some_iff] at hcov
      obtain ⟨spec, -, rfl⟩ := hcov
      exact ⟨rfl, rfl⟩
  have hgenerated := List.foldlRecOn points addGenerated hstart fun m hm p _ => by
    constructor
    · intro a
      rw [addGenerated, get?_eachAxis, ← hm.isSome]
      cases p.axisValues.get? a <;> simp
    · intro a cov hcov
      rw [addGenerated, get?_eachAxis] at hcov
      cases hp : p.axisValues.get? a with
      | none => exact hm.sets a cov (by rwa [hp] at hcov)
      | some v =>
        rw [hp, Option.elim_some, Option.map_eq_some_iff] at hcov
        obtain ⟨old, hold, rfl⟩ := hcov
        exact hm.sets a old hold
  refine List.foldlRecOn exclusions addExclusion hgenerated fun m hm e _ => ?_
  constructor
  · intro a
    rw [addExclusion, Dict.get?_modify, ← hm.isSome]
    split
    · next ha => rw [Option.isSome_map, ha]
    · rfl
  · intro a cov hcov
    rw [addExclusion, Dict.get?_modify] at hcov
    split at hcov
    · rw [Option.map_eq_some_iff] at hcov
      obtain ⟨old, hold, rfl⟩ := hcov
      exact hm.sets _ old hold
    · exact hm.sets a cov hcov

/-- Points that end up with an accepted outcome are points of calls. -/
theorem exists_point_iff_exists_call {calls : List (RecordCall V H)}
    (hids : (m.points.map (·.designPointId)).Nodup) (hcalls : ∀ c ∈ calls, c.point ∈ m.points)
    (accepted : Outcome → Prop) (a : String) (v : V) :
    (∃ p ∈ m.points, (∃ o, lastOutcome calls p.designPointId = some o ∧ accepted o) ∧
      p.carries a v) ↔
    ∃ c ∈ calls, c.point.carries a v ∧
      ∃ o, lastOutcome calls c.point.designPointId = some o ∧ accepted o := by
  constructor
  · rintro ⟨p, hp, ⟨o, hlast, ho⟩, hv⟩
    obtain ⟨c, hc, hid, -⟩ := exists_call_of_lastOutcome hlast
    have hpoint : c.point = p := List.inj_on_of_nodup_map hids (hcalls c hc) hp hid
    subst hpoint
    exact ⟨c, hc, hv, o, hlast, ho⟩
  · rintro ⟨c, hc, hv, hlast⟩
    exact ⟨c.point, hcalls c hc, hlast, hv⟩

variable [EquivBEq V]

theorem mem_carriedOn {ids : EqSet String} {a : String} {v : V} :
    v ∈ m.carriedOn ids a ↔ ∃ p ∈ m.points, p.designPointId ∈ ids ∧ p.carries a v := by
  simp only [carriedOn, EqSet.mem_ofList, List.mem_filterMap, List.mem_filter,
    decide_eq_true_eq, DesignPoint.carries, Option.any_eq_true]
  constructor
  · rintro ⟨w, ⟨p, ⟨hp, hid⟩, hw⟩, hvw⟩
    exact ⟨p, hp, hid, w, hw, hvw⟩
  · rintro ⟨p, hp, hid, w, hw, hvw⟩
    exact ⟨w, ⟨p, ⟨hp, hid⟩, hw⟩, hvw⟩

section OneValue

variable {calls : List (RecordCall V H)} {cov : AxisCoverage V}

/-- A value is among the evaluated ones of its axis exactly when a point with it is. -/
theorem evaluated_exact_iff (hm : m.Fresh) (hids : (m.points.map (·.designPointId)).Nodup)
    (hcalls : ∀ c ∈ calls, c.point ∈ m.points) (hcov : cov.evaluated = .empty) (a : String)
    (v : V) :
    (v ∈ (calls.foldl (AxisCoverage.step a) cov).evaluated ↔
      v ∈ (m.run calls).carriedOn (m.run calls).evaluatedIds a) ↔ KeepsEvaluated calls a v := by
  have hlast : (∃ o, lastOn calls a v = some o ∧ o ≠ .pruned) →
      ∃ c ∈ calls, c.point.carries a v ∧
        ∃ o, lastOutcome calls c.point.designPointId = some o ∧ o ≠ .pruned := by
    rintro ⟨o, ho, hne⟩
    obtain ⟨c, hc, hv, hlast⟩ := lastOutcome_of_lastOn (onePointPerId_of_mem hids hcalls) ho
    exact ⟨c, hc, hv, o, hlast, hne⟩
  rw [AxisCoverage.mem_evaluated_foldl hcov, mem_carriedOn, points_run]
  simp only [mem_evaluatedIds_run hm.evaluatedIds]
  rw [exists_point_iff_exists_call hids hcalls (· ≠ .pruned), KeepsEvaluated]
  constructor
  · intro h hcall hpruned
    obtain ⟨o, ho, hne⟩ := h.mpr hcall
    rw [hpruned] at ho
    exact hne (Option.some.inj ho).symm
  · intro h
    refine ⟨hlast, fun hcall => ?_⟩
    obtain ⟨c, hc, hv, -⟩ := id hcall
    obtain ⟨o, ho⟩ : ∃ o, lastOn calls a v = some o :=
      LastWrite.exists_last hc (b := c.outcome) (by simp [onValue, callOn, hv])
    refine ⟨o, ho, ?_⟩
    rintro rfl
    exact h hcall ho

/-- A value is among the successful ones of its axis exactly when a point with it is. -/
theorem successful_exact_iff (hm : m.Fresh) (hids : (m.points.map (·.designPointId)).Nodup)
    (hcalls : ∀ c ∈ calls, c.point ∈ m.points) (hcov : cov.successful = .empty) (a : String)
    (v : V) :
    (v ∈ (calls.foldl (AxisCoverage.step a) cov).successful ↔
      v ∈ (m.run calls).carriedOn (m.run calls).successfulIds a) ↔ KeepsSuccessful calls a v := by
  have hpoint := exists_point_iff_exists_call hids hcalls (· = .success) a v
  simp only [exists_eq_right] at hpoint
  have hids' := mem_successfulIds_run (hm.idsOf .success) calls
  rw [AxisCoverage.mem_successful_foldl hcov, mem_carriedOn, points_run]
  simp only [hids']
  rw [hpoint, KeepsSuccessful]

end OneValue

/-- The value sets of the axes agree with the classified points after a run exactly when
every value keeps its place in both sets. -/
theorem axisSetsExact_iff (axes : Dict String (AxisSpec V)) (points : List (DesignPoint V H))
    (exclusions : List (ExclusionRecord V)) (calls : List (RecordCall V H))
    (hids : (points.map (·.designPointId)).Nodup) (hcalls : ∀ c ∈ calls, c.point ∈ points) :
    ((build axes points exclusions).run calls).AxisSetsExact ↔
      ∀ a ∈ axes.keys, ∀ v, KeepsEvaluated calls a v ∧ KeepsSuccessful calls a v := by
  have hfresh := build_fresh axes points exclusions
  have haxes := build_freshAxes axes points exclusions
  have hpoints := points_build axes points exclusions
  have hkeys : ∀ a, a ∈ axes.keys ↔
      ((build axes points exclusions).coverage.get? a).isSome = true := by
    intro a
    rw [haxes.isSome, Dict.mem_keys, Option.isSome_iff_exists]
  generalize build axes points exclusions = m at hfresh haxes hpoints hkeys
  subst hpoints
  constructor
  · intro h a ha v
    obtain ⟨cov, hcov⟩ := Option.isSome_iff_exists.mp ((hkeys a).mp ha)
    obtain ⟨hevaluated, hsuccessful⟩ := haxes.sets a cov hcov
    have hexact := h a (calls.foldl (AxisCoverage.step a) cov)
      (by rw [get?_coverage_run, hcov, Option.map_some])
    exact ⟨(evaluated_exact_iff hfresh hids hcalls hevaluated a v).mp (hexact.1 v),
      (successful_exact_iff hfresh hids hcalls hsuccessful a v).mp (hexact.2 v)⟩
  · intro h a cov hcov
    rw [get?_coverage_run, Option.map_eq_some_iff] at hcov
    obtain ⟨cov, hcov, rfl⟩ := hcov
    obtain ⟨hevaluated, hsuccessful⟩ := haxes.sets a cov hcov
    have ha := (hkeys a).mpr (Option.isSome_iff_exists.mpr ⟨cov, hcov⟩)
    exact ⟨fun v => (evaluated_exact_iff hfresh hids hcalls hevaluated a v).mpr (h a ha v).1,
      fun v => (successful_exact_iff hfresh hids hcalls hsuccessful a v).mpr (h a ha v).2⟩

end CoverageManifest

section Samples

/-- Two points that share the engine of a small design space. -/
def samplePoint (id : String) : DesignPoint String Unit where
  designPointId := id
  hardwareConfig := ()
  scenarioRef := "edge"
  workloadRef := none
  axisValues := .ofList [("engine", "block")]

def sampleAxes : Dict String (AxisSpec String) :=
  .ofList [("engine", ⟨"engine", ["block"], by decide⟩)]

def samplePoints : List (DesignPoint String Unit) := [samplePoint "p0", samplePoint "p1"]

def call (outcome : Outcome) (id : String) : RecordCall String Unit :=
  { outcome, point := samplePoint id }

theorem call_mem_samplePoints {calls : List (RecordCall String Unit)}
    (h : ∀ c ∈ calls, c.point = samplePoint "p0" ∨ c.point = samplePoint "p1") :
    ∀ c ∈ calls, c.point ∈ samplePoints := by
  intro c hc
  rcases h c hc with hp | hp
  · rw [hp]
    exact List.mem_cons_self
  · rw [hp]
    exact List.mem_cons_of_mem _ List.mem_cons_self

/-- A point that succeeds and fails later is moved, and so is a pruned point that is pruned
again after a success. -/
theorem partitioned_iff_moved : (CoverageManifest.build sampleAxes samplePoints []).Partitioned
    [call .success "p0", call .failed "p0", call .pruned "p1", call .success "p1",
      call .pruned "p1"] :=
  (CoverageManifest.partitioned_iff sampleAxes samplePoints [] _
    (call_mem_samplePoints (by simp [call]))).mpr (by decide)

/-- A point that fails and is filtered later is in both classes. -/
theorem failedThenFiltered_not_partitioned :
    ¬(CoverageManifest.build sampleAxes samplePoints []).Partitioned
      [call .failed "p0", call .filtered "p0"] := by
  intro h
  have hcount := h.evaluated
  revert hcount
  decide

/-- Runs that only succeed keep every value in both sets. -/
theorem keeps_of_successes {calls : List (RecordCall String Unit)}
    (h : ∀ c ∈ calls, c.outcome = .success) (a v : String) :
    KeepsEvaluated calls a v ∧ KeepsSuccessful calls a v := by
  have hlast : ∀ c ∈ calls, lastOutcome calls c.point.designPointId = some .success := by
    intro c hc
    obtain ⟨o, ho⟩ := exists_lastOutcome hc
    obtain ⟨d, hd, -, rfl⟩ := exists_call_of_lastOutcome ho
    rw [ho, h d hd]
  have hvalue : ∀ c ∈ calls, LastWrite.only Outcome.isVerdict (onValue a v) c = onValue a v c := by
    intro c hc
    unfold LastWrite.only onValue callOn
    split
    · simp [h c hc, Outcome.isVerdict, Option.filter_some]
    · rfl
  have hon : ∀ o, lastOn calls a v = some o →
      o = .success ∧ ∃ c ∈ calls, c.point.carries a v := by
    intro o ho
    obtain ⟨c, hc, hw⟩ := LastWrite.exists_of_last ho
    unfold onValue callOn at hw
    split at hw
    · next hv => exact ⟨by rw [← h c hc]; exact (Option.some.inj hw).symm, c, hc, hv⟩
    · cases hw
  constructor
  · intro _ hpruned
    cases (hon _ hpruned).1
  · unfold KeepsSuccessful lastVerdict
    rw [LastWrite.last_congr hvalue]
    constructor
    · intro ho
      obtain ⟨-, c, hc, hv⟩ := hon _ ho
      exact ⟨c, hc, hv, hlast c hc⟩
    · rintro ⟨c, hc, hv, -⟩
      obtain ⟨o, ho⟩ : ∃ o, lastOn calls a v = some o :=
        LastWrite.exists_last hc (b := c.outcome) (by simp [onValue, callOn, hv])
      rw [← (hon o ho).1]
      exact ho

theorem sampleIds_nodup : (samplePoints.map (·.designPointId)).Nodup := by decide

/-- Two successful points keep their shared engine in both sets. -/
theorem axisSetsExact_iff_successes : ((CoverageManifest.build sampleAxes samplePoints []).run
    [call .success "p0", call .success "p1"]).AxisSetsExact :=
  (CoverageManifest.axisSetsExact_iff sampleAxes samplePoints [] _ sampleIds_nodup
    (call_mem_samplePoints (by simp [call]))).mpr fun a _ v =>
      keeps_of_successes (by simp [call]) a v

/-- Pruning a point takes its engine from the evaluated values although the other point
still has it. -/
theorem prunedPoint_removes_shared_value :
    ¬((CoverageManifest.build sampleAxes samplePoints []).run
      [call .success "p0", call .pruned "p1"]).AxisSetsExact := by
  intro h
  have hblock := ((h "engine" _ rfl).1 "block").mpr
  revert hblock
  decide

end Samples

end Dse

end NpuArc
