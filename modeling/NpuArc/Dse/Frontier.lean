import NpuArc.Dse.Pareto
import NpuArc.Library.Maxima
import NpuArc.Library.StableSort

/-!
# Correctness of the Pareto frontier

The loop over the objectives decides dominance of the results by their objective values.
Since dominance is a strict order on results without NaN, the frontier has exactly the
undominated passing results, and every other passing result has a frontier member above
it. The results have distinct ids, so sorting by id forgets the order of the input.
-/

namespace NpuArc

namespace Dse

/-- No metric of a result is NaN. -/
def NoNaN (r : DesignPointResult) : Prop := ∀ m, r.metrics = some m → m.NoNaN

namespace MultiObjectivePareto

variable {mp : MultiObjectivePareto} {a b c r : DesignPointResult}
  {results : List DesignPointResult}

/-! ### The intended dominance -/

/-- One result is at least as good as another on an objective, where a missing metric counts
as the worst value. -/
def AtLeastAsGood (obj : Objective) (a b : DesignPointResult) : Prop :=
  match obj.direction with
  | .maximize => (objectiveValue a obj).le (objectiveValue b obj) = true
  | .minimize => (objectiveValue b obj).le (objectiveValue a obj) = true

/-- A result is at least as good on every objective and better on one. -/
def Beats (mp : MultiObjectivePareto) (b a : DesignPointResult) : Prop :=
  Dominance.Dominates AtLeastAsGood mp.objectives b a

/-- A result passes all hard gates that are evaluated. -/
def Passes (mp : MultiObjectivePareto) (r : DesignPointResult) : Prop :=
  (mp.decorate r).passedAllGates = true

theorem AtLeastAsGood.trans (obj : Objective) (a b c : DesignPointResult)
    (hab : AtLeastAsGood obj a b) (hbc : AtLeastAsGood obj b c) : AtLeastAsGood obj a c := by
  unfold AtLeastAsGood at *
  cases hdir : obj.direction with
  | maximize =>
    rw [hdir] at hab hbc
    exact PyFloat.le_trans hab hbc
  | minimize =>
    rw [hdir] at hab hbc
    exact PyFloat.le_trans hbc hab

/-! ### What the loop decides -/

/-- A metric of a result without NaN is not NaN. -/
theorem metricValue_ne_nan (hr : NoNaN r) (field : String) :
    metricValue r.metrics field ≠ some .nan := by
  unfold metricValue
  cases hmetrics : r.metrics with
  | none => simp
  | some m =>
    have hlookup : ∀ field value, m.fields.lookup field = some value → value ≠ some .nan := by
      intro field value h
      obtain ⟨before, after, hsplit, -⟩ := List.lookup_eq_some_iff.mp h
      exact hr m hmetrics (field, value) (by rw [hsplit]; simp)
    cases hfield : m.fields.lookup field with
    | some value =>
      simp only [hfield]
      exact hlookup field value hfield
    | none =>
      simp only [hfield]
      cases aliasMap.lookup field with
      | none => simp
      | some field' =>
        cases hfield' : m.fields.lookup field' with
        | none => simp [hfield']
        | some value =>
          simp only [hfield', Option.join_some]
          exact hlookup field' value hfield'

/-- The values of a result without NaN are not NaN. -/
theorem objectiveValue_ne_nan (hr : NoNaN r) (obj : Objective) :
    objectiveValue r obj ≠ .nan := by
  unfold objectiveValue
  cases hvalue : metricValue r.metrics obj.metricField with
  | none => cases obj.direction <;> simp [PyFloat.negInf, PyFloat.posInf]
  | some value =>
    rintro rfl
    exact metricValue_ne_nan hr obj.metricField hvalue

/-- The objective values of a decorated result are found under their names. -/
theorem get?_objectiveValues (hnames : (mp.objectives.map (·.name)).Nodup)
    (r : DesignPointResult) {obj : Objective} (hobj : obj ∈ mp.objectives) :
    (mp.decorate r).objectiveValues.get? obj.name = some (objectiveValue r obj) := by
  apply Dict.get?_ofList_of_mem
  · rw [List.map_map]
    exact hnames
  · exact List.mem_map.mpr ⟨obj, hobj, rfl⟩

/-- A value is worse than another in a direction. -/
def worse (dir : ObjectiveDirection) (x y : PyFloat) : Bool :=
  match dir with
  | .maximize => x.lt y
  | .minimize => y.lt x

theorem dominatesFrom_cons (p q : ParetoPoint) (strictlyBetter : Bool) (obj : Objective)
    (rest : List Objective) {x y : PyFloat} (hx : p.objectiveValues.get? obj.name = some x)
    (hy : q.objectiveValues.get? obj.name = some y) :
    dominatesFrom p q strictlyBetter (obj :: rest) =
      if worse obj.direction x y then false
      else dominatesFrom p q (strictlyBetter || worse obj.direction y x) rest := by
  rw [dominatesFrom, hx, hy]
  cases obj.direction <;> rfl

/-- Without NaN, a result is at least as good as another unless its value is worse. -/
theorem atLeastAsGood_iff (ha : NoNaN a) (hb : NoNaN b) (obj : Objective) :
    AtLeastAsGood obj a b ↔
      worse obj.direction (objectiveValue b obj) (objectiveValue a obj) = false := by
  have hva := objectiveValue_ne_nan ha obj
  have hvb := objectiveValue_ne_nan hb obj
  unfold AtLeastAsGood worse
  cases obj.direction with
  | maximize =>
    rw [Bool.eq_false_iff, ne_eq, ← PyFloat.not_le hva hvb, Bool.not_eq_false]
  | minimize =>
    rw [Bool.eq_false_iff, ne_eq, ← PyFloat.not_le hvb hva, Bool.not_eq_false]

/-- The loop finds no objective on which the first result is worse, and notes whether it is
better on one. -/
theorem dominatesFrom_iff (hnames : (mp.objectives.map (·.name)).Nodup) (ha : NoNaN a)
    (hb : NoNaN b) (strictlyBetter : Bool) {rest : List Objective} (hrest : rest ⊆ mp.objectives) :
    dominatesFrom (mp.decorate b) (mp.decorate a) strictlyBetter rest = true ↔
      (∀ obj ∈ rest, AtLeastAsGood obj a b) ∧
        (strictlyBetter = true ∨ ∃ obj ∈ rest, ¬AtLeastAsGood obj b a) := by
  induction rest generalizing strictlyBetter with
  | nil => simp [dominatesFrom]
  | cons obj rest ih =>
    have hobj := hrest List.mem_cons_self
    have hih := fun strict => ih strict fun o ho => hrest (List.mem_cons_of_mem obj ho)
    rw [dominatesFrom_cons _ _ strictlyBetter obj rest (get?_objectiveValues hnames b hobj)
      (get?_objectiveValues hnames a hobj), List.forall_mem_cons, atLeastAsGood_iff ha hb]
    by_cases hworse : worse obj.direction (objectiveValue b obj) (objectiveValue a obj) = true
    · simp [hworse]
    · rw [if_neg hworse, hih, Bool.or_eq_true]
      rw [Bool.not_eq_true] at hworse
      have hbetter : worse obj.direction (objectiveValue a obj) (objectiveValue b obj) = true ↔
          ¬AtLeastAsGood obj b a := by
        rw [atLeastAsGood_iff hb ha, Bool.not_eq_false]
      rw [hbetter]
      simp only [hworse, List.mem_cons, exists_eq_or_imp]
      tauto

/-- The loop decides dominance. -/
theorem dominates_decorate (hnames : (mp.objectives.map (·.name)).Nodup) (ha : NoNaN a)
    (hb : NoNaN b) : mp.dominates (mp.decorate b) (mp.decorate a) = true ↔ mp.Beats b a := by
  rw [dominates, dominatesFrom_iff hnames ha hb false (List.Subset.refl _)]
  simp only [Bool.false_eq_true, false_or]
  rfl

/-- No point dominates itself. -/
theorem dominates_self (p : ParetoPoint) : mp.dominates p p = false := by
  have hlt : ∀ x : PyFloat, x.lt x = false := by
    intro x
    cases x with
    | nan => rfl
    | num x => simp
  have hfrom : ∀ rest, dominatesFrom p p false rest = false := by
    intro rest
    induction rest with
    | nil => rfl
    | cons obj rest ih => cases hdir : obj.direction <;> simp [dominatesFrom, hdir, hlt, ih]
  exact hfrom mp.objectives

/-! ### The frontier -/

/-- Comparing with the other positions is comparing with all elements, for a relation that
relates no element to itself. -/
private theorem filter_zipIdx_others {α : Type*} {above : α → α → Bool} {l : List α}
    (hirrefl : ∀ a, above a a = false) :
    (l.zipIdx.filter fun x => !l.zipIdx.any fun y => y.2 != x.2 && above y.1 x.1).map Prod.fst =
      l.filter fun x => !l.any fun y => above y x := by
  have hany : ∀ x ∈ l.zipIdx, (l.zipIdx.any fun y => y.2 != x.2 && above y.1 x.1) =
      l.any fun y => above y x.1 := by
    intro x hx
    rw [Bool.eq_iff_iff, List.any_eq_true, List.any_eq_true]
    constructor
    · rintro ⟨y, hy, habove⟩
      rw [Bool.and_eq_true] at habove
      exact ⟨y.1, List.fst_mem_of_mem_zipIdx hy, habove.2⟩
    · rintro ⟨b, hb, habove⟩
      obtain ⟨i, hi, rfl⟩ := List.getElem_of_mem hb
      refine ⟨(l[i], i), List.mk_mem_zipIdx_iff_getElem?.mpr (List.getElem?_eq_getElem hi), ?_⟩
      -- At the position of `x` stands `x` itself, which is not above itself.
      have hne : i ≠ x.2 := by
        rintro rfl
        rw [List.mem_zipIdx_iff_getElem?, List.getElem?_eq_getElem hi] at hx
        rw [Option.some.inj hx, hirrefl] at habove
        cases habove
      simp [hne, habove]
  rw [List.filter_congr fun x hx => by rw [hany x hx]]
  conv_rhs => rw [← List.zipIdx_map_fst 0 l, List.filter_map]
  rw [List.zipIdx_map_fst]
  rfl

/-- The frontier before it is sorted. -/
theorem computeFrontier_eq (mp : MultiObjectivePareto) (results : List DesignPointResult) :
    mp.computeFrontier results =
      ((mp.decorated results).filter fun p =>
        !(mp.decorated results).any fun q => mp.dominates q p).insertionSort
          fun p q => p.result.designPointId ≤ q.result.designPointId := by
  unfold computeFrontier
  simp only
  rw [filter_zipIdx_others dominates_self]

theorem mem_decorated {p : ParetoPoint} :
    p ∈ mp.decorated results ↔ ∃ r ∈ results, mp.Passes r ∧ mp.decorate r = p := by
  unfold decorated Passes
  simp only [List.mem_filter, List.mem_map]
  constructor
  · rintro ⟨⟨r, hr, rfl⟩, hpass⟩
    exact ⟨r, hr, hpass, rfl⟩
  · rintro ⟨r, hr, hpass, rfl⟩
    exact ⟨⟨r, hr, rfl⟩, hpass⟩

/-- What the frontier promises: exactly the passing results that no passing result beats, in
the order of their ids, with a frontier member above every other passing result, and
without regard to the order of the input. -/
structure FrontierCorrect (mp : MultiObjectivePareto) (results : List DesignPointResult) :
    Prop where
  exact : ∀ p, p ∈ mp.computeFrontier results ↔ ∃ r ∈ results, mp.decorate r = p ∧
    mp.Passes r ∧ ∀ r' ∈ results, mp.Passes r' → ¬mp.Beats r' r
  sorted : ((mp.computeFrontier results).map (·.result.designPointId)).Pairwise (· < ·)
  covered : ∀ r ∈ results, mp.Passes r → mp.decorate r ∉ mp.computeFrontier results →
    ∃ p ∈ mp.computeFrontier results, mp.Beats p.result r
  permuted : ∀ results', results'.Perm results →
    mp.computeFrontier results' = mp.computeFrontier results

section Correctness

variable (hnames : (mp.objectives.map (·.name)).Nodup) (hnan : ∀ r ∈ results, NoNaN r)
include hnames hnan

/-- The frontier has exactly the undominated passing results. -/
theorem mem_computeFrontier {p : ParetoPoint} :
    p ∈ mp.computeFrontier results ↔ ∃ r ∈ results, mp.decorate r = p ∧ mp.Passes r ∧
      ∀ r' ∈ results, mp.Passes r' → ¬mp.Beats r' r := by
  rw [computeFrontier_eq, List.mem_insertionSort, List.mem_filter, mem_decorated,
    Bool.not_eq_true', List.any_eq_false]
  constructor
  · rintro ⟨⟨r, hr, hpass, rfl⟩, hundominated⟩
    refine ⟨r, hr, rfl, hpass, fun r' hr' hpass' hbeats => ?_⟩
    exact hundominated _ (mem_decorated.mpr ⟨r', hr', hpass', rfl⟩)
      ((dominates_decorate hnames (hnan r hr) (hnan r' hr')).mpr hbeats)
  · rintro ⟨r, hr, rfl, hpass, hundominated⟩
    refine ⟨⟨r, hr, hpass, rfl⟩, fun q hq hdominates => ?_⟩
    obtain ⟨r', hr', hpass', rfl⟩ := mem_decorated.mp hq
    exact hundominated r' hr' hpass'
      ((dominates_decorate hnames (hnan r hr) (hnan r' hr')).mp hdominates)

/-- A passing result outside the frontier is beaten by a frontier member. -/
theorem exists_frontier_beats (hr : r ∈ results) (hpass : mp.Passes r)
    (hout : mp.decorate r ∉ mp.computeFrontier results) :
    ∃ p ∈ mp.computeFrontier results, mp.Beats p.result r := by
  classical
  let passing := results.filter fun r => decide (mp.Passes r)
  have hmem : ∀ r, r ∈ passing ↔ r ∈ results ∧ mp.Passes r := by
    intro r
    rw [List.mem_filter, decide_eq_true_iff]
  obtain ⟨r', hr', hpass', hbeats⟩ : ∃ r' ∈ results, mp.Passes r' ∧ mp.Beats r' r := by
    by_contra hnone
    refine hout ((mem_computeFrontier hnames hnan).mpr ⟨r, hr, rfl, hpass, ?_⟩)
    exact fun r' hr' hpass' hbeats => hnone ⟨r', hr', hpass', hbeats⟩
  have htop : ∃ top, Dominance.Undominated mp.Beats passing top ∧ mp.Beats top r :=
    Dominance.exists_undominated_above (fun a _ => Dominance.Dominates.irrefl)
      (fun _ _ _ _ _ _ hcb hba => Dominance.Dominates.trans AtLeastAsGood.trans hcb hba)
      ((hmem r).mpr ⟨hr, hpass⟩) ((hmem r').mpr ⟨hr', hpass'⟩) hbeats
  obtain ⟨top, ⟨htop, hundominated⟩, habove⟩ := htop
  obtain ⟨hin, htopPasses⟩ := (hmem top).mp htop
  refine ⟨mp.decorate top, (mem_computeFrontier hnames hnan).mpr
    ⟨top, hin, rfl, htopPasses, fun b hb hbPasses => ?_⟩, habove⟩
  exact hundominated b ((hmem b).mpr ⟨hb, hbPasses⟩)

end Correctness

/-- Decorated results with one id are one point. -/
theorem eq_of_mem_decorated (mp : MultiObjectivePareto)
    (hids : (results.map (·.designPointId)).Nodup) {p q : ParetoPoint}
    (hp : p ∈ mp.decorated results) (hq : q ∈ mp.decorated results)
    (hid : p.result.designPointId = q.result.designPointId) : p = q := by
  obtain ⟨r, hr, -, rfl⟩ := mem_decorated.mp hp
  obtain ⟨r', hr', -, rfl⟩ := mem_decorated.mp hq
  rw [List.inj_on_of_nodup_map hids hr hr' hid]

/-- The order of the input does not matter, whatever the metrics are. -/
theorem computeFrontier_perm (hids : (results.map (·.designPointId)).Nodup)
    {results' : List DesignPointResult} (hperm : results'.Perm results) :
    mp.computeFrontier results' = mp.computeFrontier results := by
  have hdecorated : (mp.decorated results').Perm (mp.decorated results) :=
    (hperm.map mp.decorate).filter _
  rw [computeFrontier_eq, computeFrontier_eq]
  have hsame : ∀ p, ((mp.decorated results').any fun q => mp.dominates q p) =
      (mp.decorated results).any fun q => mp.dominates q p := by
    intro p
    rw [Bool.eq_iff_iff, List.any_eq_true, List.any_eq_true]
    simp only [hdecorated.mem_iff]
  simp only [hsame]
  have hsort := TiedSort.insertionSort_append_eq (l := [])
    (r := fun p q : ParetoPoint => p.result.designPointId ≤ q.result.designPointId)
    (fun _ _ => String.le_total _ _) (fun _ _ _ => String.le_trans)
    (hdecorated.filter fun p => !(mp.decorated results).any fun q => mp.dominates q p)
    fun p hp q hq htied => eq_of_mem_decorated mp hids
      (hdecorated.mem_iff.mp (List.mem_filter.mp hp).1)
      (hdecorated.mem_iff.mp (List.mem_filter.mp hq).1)
      (String.le_antisymm htied.1 htied.2)
  rw [List.append_nil, List.append_nil] at hsort
  exact hsort

/-- The ids of the frontier increase. -/
theorem computeFrontier_sorted (hids : (results.map (·.designPointId)).Nodup) :
    ((mp.computeFrontier results).map (·.result.designPointId)).Pairwise (· < ·) := by
  rw [computeFrontier_eq]
  generalize hl : ((mp.decorated results).filter fun p =>
    !(mp.decorated results).any fun q => mp.dominates q p) = l
  have hsub : (l.map (·.result.designPointId)).Sublist (results.map (·.designPointId)) := by
    have hdecorated : l.Sublist (results.map mp.decorate) := by
      rw [← hl]
      exact List.filter_sublist.trans List.filter_sublist
    have hmap := hdecorated.map fun p => p.result.designPointId
    rw [List.map_map] at hmap
    exact hmap
  have hnodup : ((l.insertionSort fun p q => p.result.designPointId ≤ q.result.designPointId).map
      (·.result.designPointId)).Nodup :=
    ((List.perm_insertionSort _ l).map _).nodup_iff.mpr (hids.sublist hsub)
  have : IsTrans ParetoPoint fun p q => p.result.designPointId ≤ q.result.designPointId :=
    ⟨fun _ _ _ => String.le_trans⟩
  have : Std.Total fun p q : ParetoPoint => p.result.designPointId ≤ q.result.designPointId :=
    ⟨fun _ _ => String.le_total _ _⟩
  have hle := List.pairwise_insertionSort
    (fun p q : ParetoPoint => p.result.designPointId ≤ q.result.designPointId) l
  rw [List.Nodup, List.pairwise_map] at hnodup
  rw [List.pairwise_map]
  refine (hle.and hnodup).imp fun {p q} h => ?_
  by_contra hlt
  exact h.2 (String.le_antisymm h.1 (String.not_lt.mp hlt))

/-- A complete result with a throughput in Hz and a p99 latency in seconds. -/
def measured (id : String) (throughput latency : ℚ) : DesignPointResult where
  designPointId := id
  status := .complete
  metrics := some
    { tokPerS := .ofRat 1, areaMm2 := .ofRat 1, powerW := .ofRat 1
      completedThroughputHz := some (.ofRat throughput), p99LatencyS := some (.ofRat latency) }

theorem measured_noNaN (id : String) (throughput latency : ℚ) :
    NoNaN (measured id throughput latency) := by
  intro m hm
  cases hm
  simp [EngineMetrics.NoNaN, EngineMetrics.fields, PyFloat.ofRat]

example : ((create none none none false).computeFrontier
    [measured "c" 3 5, measured "b" 1 2, measured "a" 2 1]).map (·.result.designPointId) =
      ["a", "c"] := by decide +kernel

/-! ### Soundness of the gates -/

/-- A point of the frontier is a passing result that no decorated result dominates. -/
theorem mem_computeFrontier_iff {p : ParetoPoint} : p ∈ mp.computeFrontier results ↔
    ∃ r ∈ results, mp.decorate r = p ∧ mp.Passes r ∧ ∀ r' ∈ results, mp.Passes r' →
      mp.dominates (mp.decorate r') (mp.decorate r) = false := by
  rw [computeFrontier_eq, List.mem_insertionSort, List.mem_filter, mem_decorated,
    Bool.not_eq_true', List.any_eq_false]
  constructor
  · rintro ⟨⟨r, hr, hpass, rfl⟩, hundominated⟩
    refine ⟨r, hr, rfl, hpass, fun r' hr' hpass' => ?_⟩
    exact Bool.eq_false_iff.mpr (hundominated _ (mem_decorated.mpr ⟨r', hr', hpass', rfl⟩))
  · rintro ⟨r, hr, rfl, hpass, hundominated⟩
    refine ⟨⟨r, hr, hpass, rfl⟩, fun q hq => ?_⟩
    obtain ⟨r', hr', hpass', rfl⟩ := mem_decorated.mp hq
    exact Bool.eq_false_iff.mp (hundominated r' hr' hpass')

/-- The reported p99 latency in seconds is at most the deadline of the scenario. -/
def WithinDeadline (sc : Scenario) (r : DesignPointResult) : Prop :=
  ∀ m x d, r.metrics = some m → m.p99LatencyS = some x → scenarioDeadlineMs sc = some d →
    x.le (.ofRat (d / 1000)) = true

/-- What each hard gate demands of a result for a scenario. -/
def SatisfiesGate (sc : Scenario) (metadata : ParetoMetadata) (r : DesignPointResult) :
    HardGateCode → Prop
  | .complete => r.status = .complete
  | .noCpuFallback => r.engineType.toLower ≠ "cpu"
  | .capacityFit => ∀ m x, r.metrics = some m → m.memoryFootprintGib = some x →
      (PyFloat.ofRat 0).le x = true ∧ x.lt .posInf = true
  | .qualityGate => metadata.qualityGateRequired = false
  | .p99Deadline => WithinDeadline sc r
  | .powerThermal => ∀ m, r.metrics = some m →
      m.powerW.le (scenarioThermalLimitW metadata) = true
  | .terminalCompletion => ∀ m, r.metrics = some m →
      (∀ n, m.deadlineMissCount = some n → n ≤ 0) ∧ ∀ n, m.dropCount = some n → n ≤ 0
  | .authoritative =>
      if metadata.qualityGateRequired then r.trustLevel = .authoritative
      else r.trustLevel ≠ .nonAuthoritative

/-- Every point of the scenario's frontier satisfies every hard gate. -/
def GateSound (sc : Scenario) (metadata : ParetoMetadata) (results : List DesignPointResult) :
    Prop :=
  ∀ mp, fromScenario sc metadata = .ok mp → ∀ p ∈ mp.computeFrontier results, ∀ code,
    SatisfiesGate sc metadata p.result code

/-- The configuration of a scenario has its thermal limit and its quality requirement. -/
theorem fromScenario_eq_ok {sc : Scenario} {metadata : ParetoMetadata}
    (h : fromScenario sc metadata = .ok mp) :
    mp.thermalLimitW = some (scenarioThermalLimitW metadata) ∧
      mp.qualityGateRequired = metadata.qualityGateRequired := by
  rw [fromScenario, bind_eq_ok] at h
  obtain ⟨objectives, -, h⟩ := h
  cases h
  exact ⟨rfl, rfl⟩

theorem positive_eq_none {count : Option ℤ} :
    positive count = none ↔ ∀ n, count = some n → n ≤ 0 := by
  cases count <;> simp [positive, Option.filter_some]

/-- What passing the evaluated gates says about a result. -/
theorem passes_iff : mp.Passes r ↔ r.status = .complete ∧ r.engineType.toLower ≠ "cpu" ∧
    invalidFootprint r.metrics = none ∧ mp.qualityGateRequired = false ∧
    mp.overThermalLimit r.metrics = none ∧
    (positive (r.metrics.bind (·.deadlineMissCount)) = none ∧
      positive (r.metrics.bind (·.dropCount)) = none) ∧
    if mp.qualityGateRequired then r.trustLevel = .authoritative
      else r.trustLevel ≠ .nonAuthoritative := by
  unfold Passes ParetoPoint.passedAllGates decorate evaluateGates
  simp only [List.all_cons, List.all_nil, Bool.and_true, Bool.and_eq_true, decide_eq_true_eq,
    Bool.not_eq_true', decide_eq_false_iff_not, Option.isNone_iff_eq_none]
  cases mp.qualityGateRequired <;> simp

/-- A passing result is sound on every gate but the deadline, and on the power where NaN is
not involved. -/
theorem satisfiesGate_of_passes {sc : Scenario} {metadata : ParetoMetadata}
    (h : fromScenario sc metadata = .ok mp) (hpass : mp.Passes r) {code : HardGateCode}
    (hdeadline : code ≠ .p99Deadline) (hpower : code ≠ .powerThermal) :
    SatisfiesGate sc metadata r code := by
  obtain ⟨-, hquality⟩ := fromScenario_eq_ok h
  obtain ⟨hcomplete, hcpu, hfootprint, hrequired, -, ⟨hmisses, hdrops⟩, htrust⟩ :=
    passes_iff.mp hpass
  rw [hquality] at hrequired htrust
  cases code with
  | complete => exact hcomplete
  | noCpuFallback => exact hcpu
  | capacityFit =>
    intro m x hm hx
    rw [invalidFootprint, hm, Option.bind_some, hx] at hfootprint
    simpa [Option.filter_some] using hfootprint
  | qualityGate => exact hrequired
  | p99Deadline => exact absurd rfl hdeadline
  | powerThermal => exact absurd rfl hpower
  | terminalCompletion =>
    intro m hm
    rw [hm, Option.bind_some] at hmisses hdrops
    exact ⟨positive_eq_none.mp hmisses, positive_eq_none.mp hdrops⟩
  | authoritative => exact htrust

/-- A passing result is within the thermal limit unless its power or the limit is NaN. -/
theorem satisfiesGate_powerThermal_iff {sc : Scenario} {metadata : ParetoMetadata}
    (h : fromScenario sc metadata = .ok mp) (hpass : mp.Passes r) :
    SatisfiesGate sc metadata r .powerThermal ↔ ∀ m, r.metrics = some m →
      m.powerW ≠ .nan ∧ scenarioThermalLimitW metadata ≠ .nan := by
  obtain ⟨hlimit, -⟩ := fromScenario_eq_ok h
  obtain ⟨-, -, -, -, hpower, -⟩ := passes_iff.mp hpass
  refine forall₂_congr fun m hm => ?_
  unfold overThermalLimit at hpower
  rw [hlimit, hm] at hpower
  simp only [ite_eq_right_iff, reduceCtorEq, imp_false, Bool.not_eq_true] at hpower
  constructor
  · exact PyFloat.ne_nan_of_le
  · rintro ⟨hpower', hlimit'⟩
    by_contra hle
    rw [Bool.not_eq_true, PyFloat.not_le hpower' hlimit'] at hle
    rw [hpower] at hle
    cases hle

/-- The frontier of a scenario is sound for all hard gates exactly when its undominated
passing results meet the deadline and involve no NaN power. -/
theorem gateSound_iff (sc : Scenario) (metadata : ParetoMetadata)
    (results : List DesignPointResult) : GateSound sc metadata results ↔
      ∀ mp, fromScenario sc metadata = .ok mp → ∀ r ∈ results, mp.Passes r →
        (∀ r' ∈ results, mp.Passes r' →
          mp.dominates (mp.decorate r') (mp.decorate r) = false) →
        WithinDeadline sc r ∧ ∀ m, r.metrics = some m →
          m.powerW ≠ .nan ∧ scenarioThermalLimitW metadata ≠ .nan := by
  constructor
  · intro hsound mp hmp r hr hpass hundominated
    have hgates := hsound mp hmp (mp.decorate r)
      (mem_computeFrontier_iff.mpr ⟨r, hr, rfl, hpass, hundominated⟩)
    exact ⟨hgates .p99Deadline, (satisfiesGate_powerThermal_iff hmp hpass).mp
      (hgates .powerThermal)⟩
  · intro h mp hmp p hp code
    obtain ⟨r, hr, rfl, hpass, hundominated⟩ := mem_computeFrontier_iff.mp hp
    obtain ⟨hdeadline, hnan⟩ := h mp hmp r hr hpass hundominated
    by_cases hcode : code = .p99Deadline
    · rw [hcode]
      exact hdeadline
    · by_cases hpower : code = .powerThermal
      · rw [hpower]
        exact (satisfiesGate_powerThermal_iff hmp hpass).mpr hnan
      · exact satisfiesGate_of_passes hmp hpass hcode hpower

/-- A scenario whose only class has a deadline of ten milliseconds. -/
def deadlineScenario : Scenario where
  name := "edge"
  classes :=
    [{ id := "frames", workMs := 1, relativeDeadlineMs := some 10
       arrival := { mode := .periodic, periodMs := some 10, count := some 1 } }]

/-- A result with a p99 latency of one second is on the frontier of this scenario. -/
theorem lateResult_on_frontier :
    ¬GateSound deadlineScenario {} [measured "late" 1 1] := by
  intro h
  let mp := create (some defaultObjectives) (some (.ofRat 10)) (some (.ofRat 150)) false
  have hmem : mp.decorate (measured "late" 1 1) ∈ mp.computeFrontier [measured "late" 1 1] := by
    refine mem_computeFrontier_iff.mpr ⟨_, List.mem_singleton_self _, rfl, ?_, ?_⟩
    · unfold Passes
      decide +kernel
    · intro r' hr' _
      rw [List.mem_singleton.mp hr']
      exact dominates_self _
  have hlate := h _ rfl _ hmem .p99Deadline _ _ 10 rfl rfl rfl
  revert hlate
  decide +kernel

end MultiObjectivePareto

end Dse

end NpuArc
