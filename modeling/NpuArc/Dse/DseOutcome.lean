import NpuArc.Dse.DseRunner

/-!
# What a run promises

A run accounts for every generated point once: in its results, in its counts and in its manifest.
A failed point makes a run partial only if partial runs are allowed; then no result has authority
and the frontier is empty. The release gate looks at trust only, and no run earns the trust that it
demands.
-/

namespace NpuArc

open LegacyResult

/-! ### The release gate -/

section Release

variable {V : Type} {rs : DesignSpaceResultV2 V}

/-- A set fit for a release: it and all its results are authoritative, and every result is
complete. -/
structure Releasable (rs : DesignSpaceResultV2 V) : Prop where
  trustLevel : rs.trustLevel = .authoritative
  results : ∀ r ∈ rs.results, r.trustLevel = .authoritative ∧ r.status = .complete

/-- The release gate lets exactly the sets pass that are fit for a release. -/
def ReleasesOnlyFit (rs : DesignSpaceResultV2 V) : Prop :=
  (∃ recommended, releaseRecommendation rs = .ok recommended) ↔ Releasable rs

theorem nonAuthoritative_eq_nil :
    nonAuthoritative rs = [] ↔ ∀ r ∈ rs.results, r.trustLevel = .authoritative := by
  rw [nonAuthoritative, List.filter_eq_nil_iff]
  simp

/-- The gate looks at the trust of the set and of its results. -/
theorem exists_releaseRecommendation_iff :
    (∃ recommended, releaseRecommendation rs = .ok recommended) ↔
      rs.trustLevel = .authoritative ∧ ∀ r ∈ rs.results, r.trustLevel = .authoritative := by
  rw [← nonAuthoritative_eq_nil]
  unfold releaseRecommendation
  dsimp only
  by_cases hset : rs.trustLevel = .authoritative
  · by_cases hresults : nonAuthoritative rs = []
    · rw [if_neg (not_not.mpr hset), if_neg (not_not.mpr hresults)]
      exact iff_of_true ⟨_, rfl⟩ ⟨hset, hresults⟩
    · rw [if_neg (not_not.mpr hset), if_pos hresults]
      exact iff_of_false (by rintro ⟨_, h⟩; cases h) fun h => hresults h.2
  · rw [if_pos hset]
    exact iff_of_false (by rintro ⟨_, h⟩; cases h) fun h => hset h.1

theorem releasesOnlyFit_iff : ReleasesOnlyFit rs ↔
    (rs.trustLevel = .authoritative → (∀ r ∈ rs.results, r.trustLevel = .authoritative) →
      ∀ r ∈ rs.results, r.status = .complete) := by
  unfold ReleasesOnlyFit
  rw [exists_releaseRecommendation_iff]
  constructor
  · intro h hset hresults r hr
    exact ((h.mp ⟨hset, hresults⟩).results r hr).2
  · intro h
    constructor
    · rintro ⟨hset, hresults⟩
      exact ⟨hset, fun r hr => ⟨hresults r hr, h hset hresults r hr⟩⟩
    · intro hfit
      exact ⟨hfit.trustLevel, fun r hr => (hfit.results r hr).1⟩

end Release

namespace Dse

namespace ScenarioDseRunner

variable {V H P M : Type} {r : ScenarioDseRunner V H P M}

/-! ### Accounting for every point -/

/-- The result of a point: under its id, failed without authority if the evaluation fails, and
complete otherwise. -/
structure Accounts (r : ScenarioDseRunner V H P M) (point : DesignPoint V H)
    (result : LabeledResult) : Prop where
  id : result.designPointId = point.designPointId
  failed : r.Fails point → result.status = .failed ∧ result.trustLevel = .nonAuthoritative
  complete : ¬r.Fails point → result.status = .complete

theorem Evaluated.accounts {ep : EvaluatedPoint V H} {result : LabeledResult}
    (h : Evaluated ep.point ep result) (hfails : ep.error.isSome = true ↔ r.Fails ep.point) :
    r.Accounts ep.point result := by
  rcases h.outcome with ⟨hnone, hcomplete⟩ | ⟨hsome, hfailed, htrust⟩
  · rw [hnone] at hfails
    exact ⟨h.id, fun hfail => absurd (hfails.mpr hfail) (by simp), fun _ => hcomplete⟩
  · exact ⟨h.id, fun _ => ⟨hfailed, htrust⟩, fun hnot => absurd (hfails.mp hsome) hnot⟩

theorem Accounts.withoutAuthority {point : DesignPoint V H} {result : LabeledResult}
    (h : r.Accounts point result) :
    r.Accounts point { result with trustLevel := .nonAuthoritative } :=
  ⟨h.id, fun hfail => ⟨(h.failed hfail).1, rfl⟩, h.complete⟩

variable {points : List (DesignPoint V H)} {evaluated : List (EvaluatedPoint V H)}

/-- The results are those of the points, in their order. -/
theorem Evaluates.accounts (h : r.Evaluates points evaluated) :
    List.Forall₂ r.Accounts points (r.results evaluated) := by
  have hresult : ∀ ep ∈ evaluated, r.Accounts ep.point (resultOf ep) := by
    intro ep hep
    obtain ⟨result, hresult⟩ := h.result ep hep
    rw [resultOf, hresult.result_eq, Option.getD_some]
    exact hresult.accounts (h.fails ep hep)
  rw [← h.points, results, List.forall₂_map_left_iff]
  split_ifs with hpartial
  · rw [List.map_map, List.forall₂_map_right_iff, List.forall₂_same]
    exact fun ep hep => (hresult ep hep).withoutAuthority
  · rw [List.forall₂_map_right_iff, List.forall₂_same]
    exact hresult

theorem Evaluates.errorOf_eq (h : r.Evaluates points evaluated) {ep : EvaluatedPoint V H}
    (hep : ep ∈ evaluated) : errorOf ep = ep.error := by
  obtain ⟨result, hresult⟩ := h.result ep hep
  rw [errorOf, hresult.result_eq, Option.isSome_some, if_pos rfl]

/-- The counts of a run: every point is evaluated, and is failed or complete. -/
structure Counts (summary : ResultSummary) (points : ℕ) (errors : ℕ) : Prop where
  generated : summary.generated = points
  evaluated : summary.evaluated = points
  failed : summary.failed = errors
  total : summary.complete + summary.failed = points
  others : summary.pruned = 0 ∧ summary.filtered = 0 ∧ summary.inPart = 0

theorem Evaluates.counts (h : r.Evaluates points evaluated) :
    Counts (summaryOf evaluated) points.length (evaluated.filterMap errorOf).length := by
  have hlength : evaluated.length = points.length := by
    rw [← h.points, List.length_map]
  have herrors : (evaluated.filterMap errorOf).length =
      evaluated.countP fun ep => ep.error.isSome := by
    rw [List.length_filterMap_eq_countP]
    refine List.countP_congr fun ep hep => ?_
    rw [h.errorOf_eq hep]
  have hevaluated : (evaluated.countP fun ep => ep.error.isNone || ep.result.isSome) =
      evaluated.length := by
    rw [List.countP_eq_length]
    intro ep hep
    obtain ⟨result, hresult⟩ := h.result ep hep
    rw [hresult.result_eq, Option.isSome_some, Bool.or_true]
  have hcomplete : (evaluated.countP fun ep => ep.error.isNone &&
      ep.result.any fun r => decide (r.status = .complete)) =
        evaluated.countP fun ep => !ep.error.isSome := by
    refine List.countP_congr fun ep hep => ?_
    obtain ⟨result, hresult⟩ := h.result ep hep
    rcases hresult.outcome with ⟨hnone, hcomplete⟩ | ⟨hsome, -⟩
    · simp [hnone, hresult.result_eq, hcomplete]
    · obtain ⟨e, he⟩ := Option.isSome_iff_exists.mp hsome
      simp [he]
  have hpart : (evaluated.countP fun ep =>
      ep.result.any fun r => decide (r.status = .inPart)) = 0 := by
    rw [List.countP_eq_zero]
    intro ep hep
    obtain ⟨result, hresult⟩ := h.result ep hep
    rcases hresult.outcome with ⟨-, hcomplete⟩ | ⟨-, hfailed, -⟩
    · simp [hresult.result_eq, hcomplete]
    · simp [hresult.result_eq, hfailed]
  have hsplit : evaluated.length = (evaluated.countP fun ep => ep.error.isSome) +
      evaluated.countP fun ep => !ep.error.isSome := by
    rw [List.length_eq_countP_add_countP (fun ep : EvaluatedPoint V H => ep.error.isSome)]
    simp only [Bool.not_eq_true, Bool.decide_eq_false]
  exact
    { generated := congrArg Nat.cast hlength
      evaluated := by rw [summaryOf, hevaluated, hlength]
      failed := by rw [summaryOf, herrors]
      total := by
        rw [summaryOf, hcomplete, ← hlength, hsplit]
        push_cast
        rw [add_comm]
      others := ⟨rfl, rfl, by rw [summaryOf, hpart]; rfl⟩ }

variable [BEq V] {generation : GenerationResult V H} {output : Output V H}

/-! ### Failures and trust -/

/-- A run with a failed point has no authority. -/
def FailuresReachTrust (r : ScenarioDseRunner V H P M) (generation : GenerationResult V H)
    (output : Output V H) : Prop :=
  (∃ point ∈ generation.points, r.Fails point) → output.resultSet.trustLevel = .nonAuthoritative

theorem trustLevel_run (h : r.run generation = .ok output) :
    output.resultSet.trustLevel = .nonAuthoritative ∧
        (∃ point ∈ generation.points, r.Fails point) ∧ r.allowPartial = true ∨
      output.resultSet.trustLevel = .exploratory ∧
        ¬((∃ point ∈ generation.points, r.Fails point) ∧ r.allowPartial = true) := by
  obtain ⟨evaluated, hevaluated, rfl, -⟩ := run_eq_ok h
  rw [← hevaluated.isPartial_iff]
  by_cases hpartial : r.isPartial evaluated = true
  · exact Or.inl ⟨if_pos hpartial, hpartial⟩
  · exact Or.inr ⟨if_neg hpartial, hpartial⟩

private theorem failuresReachTrust_iff (h : r.run generation = .ok output) :
    r.FailuresReachTrust generation output ↔
      (∀ point ∈ generation.points, ¬r.Fails point) ∨ r.allowPartial = true := by
  unfold FailuresReachTrust
  rcases trustLevel_run h with ⟨htrust, -, hallow⟩ | ⟨htrust, hnot⟩
  · exact iff_of_true (fun _ => htrust) (Or.inr hallow)
  · rw [htrust]
    constructor
    · intro hreach
      refine Or.inl fun point hpoint hfails => ?_
      cases hreach ⟨point, hpoint, hfails⟩
    · rintro (hnone | hallow) ⟨point, hpoint, hfails⟩
      · exact absurd hfails (hnone point hpoint)
      · exact absurd ⟨⟨point, hpoint, hfails⟩, hallow⟩ hnot

/-- The release gate lets exactly the fit sets pass unless a set that is authoritative throughout
has a result that is not complete, and a failure takes a run's authority away unless partial runs
are not allowed. -/
theorem releases_and_failures_iff (rs : DesignSpaceResultV2 String)
    (h : r.run generation = .ok output) :
    (ReleasesOnlyFit rs ↔
      (rs.trustLevel = .authoritative → (∀ r ∈ rs.results, r.trustLevel = .authoritative) →
        ∀ r ∈ rs.results, r.status = .complete)) ∧
    (r.FailuresReachTrust generation output ↔
      (∀ point ∈ generation.points, ¬r.Fails point) ∨ r.allowPartial = true) :=
  ⟨releasesOnlyFit_iff, failuresReachTrust_iff h⟩

/-! ### The manifest of a run -/

/-- What entering one point does to the classes of a manifest. -/
structure Recorded (m m' : CoverageManifest V H) (ep : EvaluatedPoint V H) : Prop where
  points : m'.points = m.points
  prunedIds : m'.prunedIds = m.prunedIds
  filteredIds : m'.filteredIds = m.filteredIds
  evaluatedIds : ∀ id, id ∈ m'.evaluatedIds ↔ id = ep.point.designPointId ∨ id ∈ m.evaluatedIds
  successfulIds : ∀ id, id ∈ m'.successfulIds ↔
    if id = ep.point.designPointId then errorOf ep = none else id ∈ m.successfulIds
  failedIds : ∀ id, id ∈ m'.failedIds ↔
    id = ep.point.designPointId ∧ errorOf ep ≠ none ∨ id ∈ m.failedIds

theorem recorded (m : CoverageManifest V H) (ep : EvaluatedPoint V H) :
    Recorded m (recordPoint m ep) ep := by
  have hevaluated : ∀ id, id ∈ (m.evaluatedIds.insert ep.point.designPointId).insert
      ep.point.designPointId ↔ id = ep.point.designPointId ∨ id ∈ m.evaluatedIds := by
    intro id
    simp only [EqSet.mem_insert, beq_iff_eq]
    tauto
  cases herror : errorOf ep with
  | none =>
    have hrecord : recordPoint m ep = (m.recordEvaluated ep.point).recordSuccess ep.point := by
      rw [recordPoint, herror]
    rw [hrecord]
    refine ⟨rfl, rfl, rfl, hevaluated, fun id => ?_, fun id => ?_⟩
    · change id ∈ m.successfulIds.insert ep.point.designPointId ↔ _
      rw [EqSet.mem_insert, beq_iff_eq]
      by_cases hid : id = ep.point.designPointId <;> simp [hid, herror]
    · change id ∈ m.failedIds ↔ _
      simp [herror]
  | some e =>
    have hrecord : recordPoint m ep = (m.recordEvaluated ep.point).recordFailed ep.point
        (if e.message = "" then "error" else e.message) := by
      rw [recordPoint, herror]
    rw [hrecord]
    refine ⟨rfl, rfl, rfl, hevaluated, fun id => ?_, fun id => ?_⟩
    · change id ∈ m.successfulIds.erase ep.point.designPointId ↔ _
      rw [EqSet.mem_erase, beq_eq_false_iff_ne]
      by_cases hid : id = ep.point.designPointId <;> simp [hid, herror]
    · change id ∈ m.failedIds.insert ep.point.designPointId ↔ _
      rw [EqSet.mem_insert, beq_iff_eq]
      simp [herror]

theorem foldl_recordPoint_keeps (evaluated : List (EvaluatedPoint V H))
    (m : CoverageManifest V H) : (evaluated.foldl recordPoint m).points = m.points ∧
      (evaluated.foldl recordPoint m).prunedIds = m.prunedIds ∧
      (evaluated.foldl recordPoint m).filteredIds = m.filteredIds := by
  induction evaluated generalizing m with
  | nil => exact ⟨rfl, rfl, rfl⟩
  | cons ep evaluated ih =>
    have hep := recorded m ep
    obtain ⟨hpoints, hpruned, hfiltered⟩ := ih (recordPoint m ep)
    exact ⟨hpoints.trans hep.points, hpruned.trans hep.prunedIds,
      hfiltered.trans hep.filteredIds⟩

theorem mem_evaluatedIds_foldl (evaluated : List (EvaluatedPoint V H))
    (m : CoverageManifest V H) (id : String) :
    id ∈ (evaluated.foldl recordPoint m).evaluatedIds ↔
      (∃ ep ∈ evaluated, id = ep.point.designPointId) ∨ id ∈ m.evaluatedIds := by
  induction evaluated generalizing m with
  | nil => simp
  | cons ep evaluated ih =>
    rw [List.foldl_cons, ih, (recorded m ep).evaluatedIds, List.exists_mem_cons_iff, or_assoc]
    exact or_left_comm

theorem mem_failedIds_foldl (evaluated : List (EvaluatedPoint V H))
    (m : CoverageManifest V H) (id : String) :
    id ∈ (evaluated.foldl recordPoint m).failedIds ↔
      (∃ ep ∈ evaluated, id = ep.point.designPointId ∧ errorOf ep ≠ none) ∨
        id ∈ m.failedIds := by
  induction evaluated generalizing m with
  | nil => simp
  | cons ep evaluated ih =>
    rw [List.foldl_cons, ih, (recorded m ep).failedIds, List.exists_mem_cons_iff, or_assoc]
    exact or_left_comm

/-- A point that is entered once keeps the class that it is entered in. -/
theorem mem_successfulIds_foldl (hids : (evaluated.map (·.point.designPointId)).Nodup)
    (m : CoverageManifest V H) (id : String) :
    id ∈ (evaluated.foldl recordPoint m).successfulIds ↔
      (∃ ep ∈ evaluated, id = ep.point.designPointId ∧ errorOf ep = none) ∨
        (id ∉ evaluated.map (·.point.designPointId) ∧ id ∈ m.successfulIds) := by
  induction evaluated generalizing m with
  | nil => simp
  | cons ep evaluated ih =>
    rw [List.map_cons, List.nodup_cons] at hids
    rw [List.foldl_cons, ih hids.2, (recorded m ep).successfulIds, List.exists_mem_cons_iff,
      List.map_cons, List.mem_cons]
    by_cases hid : id = ep.point.designPointId
    · subst hid
      simp only [hids.1, not_false_eq_true, if_true, true_and, not_true_eq_false,
        false_and, or_false]
      exact or_comm
    · simp [hid]

/-! ### What a run returns -/

/-- A run accounts for every generated point: by its result, in the counts, and by its class in
the manifest, of which the count invariants hold. Only points that did not fail are on the
frontier. -/
structure RunAccounts (r : ScenarioDseRunner V H P M) (generation : GenerationResult V H)
    (output : Output V H) : Prop where
  results : List.Forall₂ r.Accounts generation.points output.resultSet.results
  counts : Counts output.resultSet.summary generation.points.length
    output.resultSet.errors.length
  points : output.manifest.points = generation.points
  successful : ∀ p ∈ generation.points,
    (p.designPointId ∈ output.manifest.successfulIds ↔ ¬r.Fails p)
  failed : ∀ p ∈ generation.points, (p.designPointId ∈ output.manifest.failedIds ↔ r.Fails p)
  invariants : output.manifest.countViolations = []
  frontier : ∀ q ∈ output.frontier, ∃ p ∈ generation.points,
    q.result.designPointId = p.designPointId ∧ ¬r.Fails p

/-- The count invariants hold of a manifest whose points are all evaluated, and each in one of the
classes of the successful and the failed. -/
theorem countViolations_eq_nil {m : CoverageManifest V H}
    (hevaluated : ∀ p ∈ m.points, p.designPointId ∈ m.evaluatedIds)
    (hclass : ∀ p ∈ m.points, (p.designPointId ∈ m.successfulIds ↔
      p.designPointId ∉ m.failedIds)) (hpruned : m.prunedIds = .empty)
    (hfiltered : m.filteredIds = .empty) : m.countViolations = [] := by
  have hnone : ∀ ids : EqSet String, ids = .empty → m.countIn ids = 0 := by
    rintro _ rfl
    exact List.countP_eq_zero.mpr fun p _ => by simp
  have hall : m.evaluatedCount = m.points.length :=
    List.countP_eq_length.mpr fun p hp => decide_eq_true (hevaluated p hp)
  have hfailed : (m.points.countP fun p => !decide (p.designPointId ∈ m.failedIds)) =
      m.successfulCount := by
    refine List.countP_congr fun p hp => ?_
    simp [hclass p hp]
  have hsplit : m.points.length = m.failedCount + m.successfulCount := by
    rw [List.length_eq_countP_add_countP fun p => decide (p.designPointId ∈ m.failedIds),
      ← hfailed]
    simp only [decide_eq_true_eq, decide_not]
    rfl
  have hpruned' : m.prunedCount = 0 := hnone _ hpruned
  have hfiltered' : m.filteredCount = 0 := hnone _ hfiltered
  rw [CoverageManifest.countViolations, if_pos, if_pos, List.append_nil]
  · omega
  · rw [CoverageManifest.generatedCount]
    omega

/-- A run accounts for every point that is generated. -/
theorem run_accounts (h : r.run generation = .ok output)
    (hids : (generation.points.map (·.designPointId)).Nodup) :
    r.RunAccounts generation output := by
  obtain ⟨evaluated, hevaluated, rfl, -⟩ := run_eq_ok h
  have hbuilt := CoverageManifest.build_fresh r.axes generation.points generation.exclusions
  have hnodup : (evaluated.map (·.point.designPointId)).Nodup := by
    rw [← hevaluated.points, List.map_map] at hids
    exact hids
  obtain ⟨hpoints, hpruned, hfiltered⟩ := foldl_recordPoint_keeps evaluated
    (CoverageManifest.build r.axes generation.points generation.exclusions)
  rw [CoverageManifest.points_build] at hpoints
  have hnot : ∀ o id, id ∉
      (CoverageManifest.build r.axes generation.points generation.exclusions).idsOf o := by
    intro o id
    rw [hbuilt.idsOf o]
    exact EqSet.not_mem_empty id
  have hsuccessful : ∀ p ∈ generation.points, (p.designPointId ∈
      (r.assemble generation evaluated).manifest.successfulIds ↔ ¬r.Fails p) := by
    intro p hp
    rw [← hevaluated.points] at hp
    obtain ⟨ep, hep, rfl⟩ := List.mem_map.mp hp
    refine (mem_successfulIds_foldl hnodup _ _).trans ?_
    rw [← hevaluated.fails ep hep, Bool.not_eq_true, Option.isSome_eq_false_iff,
      Option.isNone_iff_eq_none]
    constructor
    · rintro (⟨ep', hep', hid, hnone⟩ | ⟨-, hmem⟩)
      · rw [List.inj_on_of_nodup_map hnodup hep hep' hid, ← hevaluated.errorOf_eq hep', hnone]
      · exact absurd hmem (hnot .success _)
    · intro hnone
      exact Or.inl ⟨ep, hep, rfl, by rw [hevaluated.errorOf_eq hep, hnone]⟩
  have hfailed : ∀ p ∈ generation.points, (p.designPointId ∈
      (r.assemble generation evaluated).manifest.failedIds ↔ r.Fails p) := by
    intro p hp
    rw [← hevaluated.points] at hp
    obtain ⟨ep, hep, rfl⟩ := List.mem_map.mp hp
    refine (mem_failedIds_foldl _ _ _).trans ?_
    rw [← hevaluated.fails ep hep, Option.isSome_iff_ne_none]
    constructor
    · rintro (⟨ep', hep', hid, hsome⟩ | hmem)
      · rw [List.inj_on_of_nodup_map hnodup hep hep' hid, ← hevaluated.errorOf_eq hep']
        exact hsome
      · exact absurd hmem (hnot .failed _)
    · intro hsome
      exact Or.inl ⟨ep, hep, rfl, by rw [hevaluated.errorOf_eq hep]; exact hsome⟩
  refine
    { results := hevaluated.accounts
      counts := hevaluated.counts
      points := hpoints
      successful := hsuccessful
      failed := hfailed
      invariants := countViolations_eq_nil ?_ ?_ ?_ ?_
      frontier := ?_ }
  · intro p hp
    rw [show (r.assemble generation evaluated).manifest.points = generation.points from hpoints,
      ← hevaluated.points] at hp
    obtain ⟨ep, hep, rfl⟩ := List.mem_map.mp hp
    exact (mem_evaluatedIds_foldl _ _ _).mpr (Or.inl ⟨ep, hep, rfl⟩)
  · intro p hp
    rw [show (r.assemble generation evaluated).manifest.points = generation.points from hpoints]
      at hp
    rw [hsuccessful p hp, hfailed p hp]
  · exact hpruned.trans (hbuilt.idsOf .pruned)
  · exact hfiltered.trans (hbuilt.idsOf .filtered)
  · intro q hq
    obtain ⟨result, hresult, rfl, hpasses, -⟩ :=
      MultiObjectivePareto.mem_computeFrontier_iff.mp hq
    obtain ⟨labeled, hlabeled, rfl⟩ := List.mem_map.mp hresult
    obtain ⟨p, hp, haccounts⟩ := exists_mem_of_forall₂ hevaluated.accounts.flip hlabeled
    refine ⟨p, hp, haccounts.id, fun hfails => ?_⟩
    have hcomplete := (MultiObjectivePareto.passes_iff.mp hpasses).1
    rw [(haccounts.failed hfails).1] at hcomplete
    cases hcomplete

/-- A result without authority is on no frontier. -/
theorem computeFrontier_eq_nil {mp : MultiObjectivePareto} {results : List DesignPointResult}
    (h : ∀ result ∈ results, result.trustLevel = .nonAuthoritative) :
    mp.computeFrontier results = [] := by
  refine List.eq_nil_iff_forall_not_mem.mpr fun q hq => ?_
  obtain ⟨result, hresult, rfl, hpasses, -⟩ := MultiObjectivePareto.mem_computeFrontier_iff.mp hq
  have htrust := (MultiObjectivePareto.passes_iff.mp hpasses).2.2.2.2.2.2
  rw [h result hresult] at htrust
  cases hrequired : mp.qualityGateRequired <;> simp [hrequired] at htrust

/-- No run earns a release recommendation. In a run that is allowed to be partial, one failed point
takes the authority of all results and empties the frontier. -/
theorem run_trust (h : r.run generation = .ok output) :
    (∃ e, r.recommendation output.resultSet = .error e) ∧
    (r.allowPartial = true → (∃ point ∈ generation.points, r.Fails point) →
      output.resultSet.trustLevel = .nonAuthoritative ∧
      (∀ result ∈ output.resultSet.results, result.trustLevel = .nonAuthoritative) ∧
      output.frontier = [] ∧ output.frontierDesignPointIds = []) := by
  constructor
  · cases hrelease : r.recommendation output.resultSet with
    | error e => exact ⟨e, rfl⟩
    | ok recommended =>
      have hset := (exists_releaseRecommendation_iff.mp ⟨recommended, hrelease⟩).1
      rcases trustLevel_run h with ⟨htrust, -⟩ | ⟨htrust, -⟩ <;>
        rw [htrust] at hset <;> cases hset
  · intro hallow hfails
    obtain ⟨evaluated, hevaluated, rfl, -⟩ := run_eq_ok h
    have hpartial := hevaluated.isPartial_iff.mpr ⟨hfails, hallow⟩
    have hresults : ∀ result ∈ r.results evaluated, result.trustLevel = .nonAuthoritative := by
      rw [results, if_pos hpartial]
      intro result hresult
      obtain ⟨_, -, rfl⟩ := List.mem_map.mp hresult
      rfl
    have hfrontier : r.pareto.computeFrontier
        ((r.results evaluated).map (·.toDesignPointResult)) = [] := by
      refine computeFrontier_eq_nil fun result hresult => ?_
      obtain ⟨labeled, hlabeled, rfl⟩ := List.mem_map.mp hresult
      exact hresults labeled hlabeled
    exact ⟨if_pos hpartial, hresults, hfrontier, congrArg (List.map _) hfrontier⟩

/-! ### A run with a failed point -/

/-- A runner that fails on the first point and completes the second one. -/
def sampleRunner (allowPartial : Bool) : ScenarioDseRunner String Unit Unit Unit where
  allowPartial := allowPartial
  axes := sampleAxes
  pareto := .create none none none false
  evaluatePpa point :=
    if point.designPointId = "p0" then .error (some "unknown engine type") else .ok ()
  runScenario _ _ := .ok (.ok ())
  engineMetrics _ _ := { tokPerS := .ofRat 1, areaMm2 := .ofRat 1, powerW := .ofRat 1 }
  configLabel _ := "systolic"
  calibrationRef _ := .ok {}
  trustGate _ := { ok := true, maxTrust := .t3, violations := [] }
  engineType _ := "systolic"
  hardwareDigest _ := ""

def sampleGeneration : GenerationResult String Unit where
  points := samplePoints
  exclusions := []

theorem exists_sampleRun (allowPartial : Bool) :
    ∃ output, (sampleRunner allowPartial).run sampleGeneration = .ok output :=
  ⟨_, rfl⟩

theorem samplePoint_fails (allowPartial : Bool) :
    ∃ point ∈ sampleGeneration.points, (sampleRunner allowPartial).Fails point :=
  ⟨samplePoint "p0", List.mem_cons_self, Or.inl ⟨some "unknown engine type", rfl⟩⟩

/-- An authoritative set with a failed result. -/
def releasedFailure : DesignSpaceResultV2 String where
  trustLevel := .authoritative
  results := [{ designPointId := "p0", status := .failed, trustLevel := .authoritative }]

/-- A failed result can be released, and a failed point leaves a run its trust. -/
theorem releasedFailure_and_sampleRun : ¬ReleasesOnlyFit releasedFailure ∧
    ∃ output, (sampleRunner false).run sampleGeneration = .ok output ∧
      ¬(sampleRunner false).FailuresReachTrust sampleGeneration output := by
  constructor
  · rw [releasesOnlyFit_iff]
    intro h
    have hstatus := h rfl (fun r hr => by rw [List.mem_singleton.mp hr]) _
      (List.mem_singleton_self _)
    cases hstatus
  · obtain ⟨output, houtput⟩ := exists_sampleRun false
    refine ⟨output, houtput, fun h => ?_⟩
    rcases (failuresReachTrust_iff houtput).mp h with hnone | hallow
    · obtain ⟨point, hpoint, hfails⟩ := samplePoint_fails false
      exact hnone point hpoint hfails
    · cases hallow

/-- The gate and the trust of the run with the failed point. -/
theorem releases_and_failures_iff_sampleRun :
    ∃ output, (sampleRunner false).run sampleGeneration = .ok output ∧
      (ReleasesOnlyFit releasedFailure ↔ (releasedFailure.trustLevel = .authoritative →
        (∀ r ∈ releasedFailure.results, r.trustLevel = .authoritative) →
          ∀ r ∈ releasedFailure.results, r.status = .complete)) ∧
      ((sampleRunner false).FailuresReachTrust sampleGeneration output ↔
        (∀ point ∈ sampleGeneration.points, ¬(sampleRunner false).Fails point) ∨
          (sampleRunner false).allowPartial = true) := by
  obtain ⟨output, houtput⟩ := exists_sampleRun false
  exact ⟨output, houtput, releases_and_failures_iff releasedFailure houtput⟩

/-- The run with the failed point accounts for both points. -/
theorem run_accounts_sampleRun : ∃ output, (sampleRunner false).run sampleGeneration = .ok output ∧
    (sampleRunner false).RunAccounts sampleGeneration output := by
  obtain ⟨output, houtput⟩ := exists_sampleRun false
  exact ⟨output, houtput, run_accounts houtput (by decide)⟩

/-- The run with the failed point has no authority if it may be partial. -/
theorem run_trust_sampleRun : ∃ output, (sampleRunner true).run sampleGeneration = .ok output ∧
    (∃ e, (sampleRunner true).recommendation output.resultSet = .error e) ∧
    ((sampleRunner true).allowPartial = true →
      (∃ point ∈ sampleGeneration.points, (sampleRunner true).Fails point) →
      output.resultSet.trustLevel = .nonAuthoritative ∧
      (∀ result ∈ output.resultSet.results, result.trustLevel = .nonAuthoritative) ∧
      output.frontier = [] ∧ output.frontierDesignPointIds = []) := by
  obtain ⟨output, houtput⟩ := exists_sampleRun true
  exact ⟨output, houtput, run_trust houtput⟩

end ScenarioDseRunner

end Dse

end NpuArc
