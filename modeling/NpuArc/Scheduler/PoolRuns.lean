import NpuArc.Library.CallSequence
import NpuArc.Scheduler.Resources
import Mathlib.Algebra.Order.Ring.Int

/-!
# Runs of the resource pools

Members of a capacity resource or of a bounded resource take and release units in
any order. What the members hold is positive and fits into the capacity in every
run. A release gives back what it can as long as the member holds something, and a
capacity resource grants in part whether or not that is allowed.
-/

namespace NpuArc

/-- The calls of a client of a resource pool. -/
inductive PoolCall
  | take (memberId : String) (units : ℤ)
  | release (memberId : String) (units : Option ℤ)

/-- What a resource pool answers. -/
inductive PoolAnswer
  | granted (units : ℤ)
  | acquired (done : Bool)
  | released (units : ℤ)
  | raised (error : Error)

/-- The answer to a method that may raise, which then leaves the pool as it is. -/
def PoolAnswer.settle {α σ : Type} (answer : α → PoolAnswer) (s : σ) :
    Except Error (α × σ) → PoolAnswer × σ
  | .ok x => (answer x.1, x.2)
  | .error error => (.raised error, s)

/-- The answer of a call and the resource after it. -/
def CapacityResource.call (r : CapacityResource) : PoolCall → PoolAnswer × CapacityResource
  | .take memberId units => PoolAnswer.settle .granted r (r.allocate memberId units)
  | .release memberId units => PoolAnswer.settle .released r (r.release memberId units)

theorem CapacityResource.call_release (r : CapacityResource) (memberId : String)
    (units : Option ℤ) : r.call (.release memberId units) =
      PoolAnswer.settle .released r ((releaseUnits r.allocated memberId units).map
        fun x => (x.1, { r with allocated := x.2 })) := rfl

/-- The resource as an object. -/
def CapacityResource.machine (r : CapacityResource) :
    CallMachine CapacityResource PoolCall PoolAnswer := ⟨r, CapacityResource.call⟩

/-- The answer of a call and the resource after it. -/
def BoundedResource.call (r : BoundedResource) : PoolCall → PoolAnswer × BoundedResource
  | .take memberId units => PoolAnswer.settle .acquired r (r.acquire memberId units)
  | .release memberId units => PoolAnswer.settle .released r (r.release memberId units)

theorem BoundedResource.call_release (r : BoundedResource) (memberId : String)
    (units : Option ℤ) : r.call (.release memberId units) =
      PoolAnswer.settle .released r ((releaseUnits r.holders memberId units).map
        fun x => (x.1, { r with holders := x.2 })) := rfl

/-- The resource as an object. -/
def BoundedResource.machine (r : BoundedResource) :
    CallMachine BoundedResource PoolCall PoolAnswer := ⟨r, BoundedResource.call⟩

/-! ### Holdings -/

/-- Every member with an entry holds some units, and together they fit into the capacity. -/
structure HoldingsFit (capacity : ℤ) (holders : Dict String ℤ) : Prop where
  positive : ∀ memberId units, holders.get? memberId = some units → 0 < units
  fit : holders.sumValues id ≤ capacity

/-- What an answered release gives back: as many of the units as the member holds. -/
def GivesBack (holders : Dict String ℤ) (memberId : String) (units : Option ℤ)
    (answer : PoolAnswer) : Prop :=
  answer = .released
    (min (units.getD (unitsHeld holders memberId)) (unitsHeld holders memberId))

/-- A release names no amount, or none at all, or a positive one for a member that holds
something. -/
def ReleasesFrom (holders : Dict String ℤ) (memberId : String) (units : Option ℤ) : Prop :=
  ∀ n, units = some n → n = 0 ∨ 0 < n ∧ memberId ∈ holders.keys

variable {capacity : ℤ} {holders : Dict String ℤ} {memberId : String}

theorem unitsHeld_of_not_mem (h : memberId ∉ holders.keys) : unitsHeld holders memberId = 0 := by
  rw [unitsHeld, Dict.not_mem_keys.mp h, Option.getD_none]

theorem HoldingsFit.unitsHeld_nonneg (h : HoldingsFit capacity holders) (memberId : String) :
    0 ≤ unitsHeld holders memberId := by
  cases hget : holders.get? memberId with
  | none => simp [unitsHeld, hget]
  | some units => simpa [unitsHeld, hget] using (h.positive memberId units hget).le

/-- What a member holds adds to what the others hold. -/
theorem sumValues_eq_unitsHeld (holders : Dict String ℤ) (memberId : String) :
    holders.sumValues id = unitsHeld holders memberId + (holders.erase memberId).sumValues id := by
  cases hget : holders.get? memberId with
  | none => rw [unitsHeld, hget, Option.getD_none, zero_add, Dict.erase_of_get?_eq_none hget]
  | some units => rw [unitsHeld, hget, Option.getD_some, Dict.sumValues_of_get? hget, id]

/-- Storing a positive holding that fits. -/
private theorem HoldingsFit.insert (h : HoldingsFit capacity holders) {units : ℤ}
    (hpos : 0 < units)
    (hfit : holders.sumValues id - unitsHeld holders memberId + units ≤ capacity) :
    HoldingsFit capacity (holders.insert memberId units) := by
  have hsplit := sumValues_eq_unitsHeld holders memberId
  constructor
  · intro k n hget
    rw [Dict.get?_insert] at hget
    split_ifs at hget
    · cases hget
      exact hpos
    · exact h.positive k n hget
  · rw [Dict.sumValues_insert, id]
    omega

private theorem HoldingsFit.erase (h : HoldingsFit capacity holders) (memberId : String) :
    HoldingsFit capacity (holders.erase memberId) := by
  have hsplit := sumValues_eq_unitsHeld holders memberId
  have hheld := h.unitsHeld_nonneg memberId
  have hfit := h.fit
  constructor
  · intro k n hget
    rw [Dict.get?_erase] at hget
    split_ifs at hget
    exact h.positive k n hget
  · omega

/-- A release that succeeds keeps the holdings positive and within the capacity. -/
theorem HoldingsFit.release (h : HoldingsFit capacity holders) {units : Option ℤ} {n : ℤ}
    {holders' : Dict String ℤ} (hok : releaseUnits holders memberId units = .ok (n, holders')) :
    HoldingsFit capacity holders' := by
  have hfit := h.fit
  simp only [releaseUnits] at hok
  split_ifs at hok with hunits hall hmember
  · cases hok
    exact h
  · cases hok
    exact h.erase memberId
  · cases hok
    exact h.insert (by omega) (by omega)

/-- No units, or a negative amount of them, are released as nothing. -/
theorem releaseUnits_of_nonpos {units : Option ℤ}
    (h : units.getD (unitsHeld holders memberId) ≤ 0) :
    releaseUnits holders memberId units = .ok (0, holders) := by
  simp only [releaseUnits, if_pos h]

/-- A member without an entry has no units to release. -/
theorem releaseUnits_of_not_mem {n : ℤ} (hpos : 0 < n) (h : memberId ∉ holders.keys) :
    releaseUnits holders memberId (some n) = .error (.keyError memberId) := by
  have hcontains : ¬holders.contains memberId = true := mt Dict.contains_iff.mp h
  simp [releaseUnits, unitsHeld_of_not_mem h, hpos.not_ge, min_eq_right hpos.le, hcontains]

/-- A member with an entry gives back what it holds of the units. -/
theorem releaseUnits_of_mem {units : Option ℤ} (hmember : memberId ∈ holders.keys)
    (hpos : 0 < units.getD (unitsHeld holders memberId)) :
    ∃ holders', releaseUnits holders memberId units =
      .ok (min (units.getD (unitsHeld holders memberId)) (unitsHeld holders memberId),
        holders') := by
  have hcontains := Dict.contains_iff.mpr hmember
  simp only [releaseUnits, if_neg hpos.not_ge, if_pos hcontains]
  split_ifs
  · exact ⟨_, rfl⟩
  · exact ⟨_, rfl⟩

/-- A release gives back what the member holds of the units exactly when it releases from a
member that holds something. -/
theorem givesBack_iff (h : HoldingsFit capacity holders) {α : Type} (s : α)
    (put : Dict String ℤ → α) {units : Option ℤ} :
    GivesBack holders memberId units (PoolAnswer.settle .released s
      ((releaseUnits holders memberId units).map fun x => (x.1, put x.2))).1 ↔
      ReleasesFrom holders memberId units := by
  have hheld := h.unitsHeld_nonneg memberId
  unfold GivesBack ReleasesFrom
  by_cases hunits : units.getD (unitsHeld holders memberId) ≤ 0
  · -- the guard answers nothing, which is right for no amount only
    rw [releaseUnits_of_nonpos hunits, min_eq_left (hunits.trans hheld)]
    simp only [PoolAnswer.settle, Except.map, PoolAnswer.released.injEq]
    cases units with
    | none => simpa using le_antisymm hheld hunits
    | some n =>
      simp only [Option.getD_some] at hunits
      simp only [Option.getD_some, Option.some.injEq, forall_eq']
      omega
  · have hpos := not_le.mp hunits
    by_cases hmember : memberId ∈ holders.keys
    · obtain ⟨holders', hok⟩ := releaseUnits_of_mem hmember hpos
      rw [hok]
      refine iff_of_true rfl ?_
      rintro n rfl
      exact Or.inr ⟨hpos, hmember⟩
    · cases units with
      | none => exact absurd (unitsHeld_of_not_mem hmember).le hunits
      | some n =>
        have hn : 0 < n := hpos
        rw [releaseUnits_of_not_mem hn hmember]
        refine iff_of_false (by simp [PoolAnswer.settle, Except.map]) ?_
        intro hfrom
        rcases hfrom n rfl with rfl | ⟨-, hmem⟩
        · exact lt_irrefl _ hn
        · exact hmember hmem

/-! ### Capacity resources -/

namespace CapacityResource

/-- Every release of a run answers what it gives back, and none of them raises. -/
def Releases (r : CapacityResource) (past : List PoolCall) (c : PoolCall) : Prop :=
  ∀ memberId units, c = .release memberId units →
    GivesBack (r.machine.after past).allocated memberId units (r.machine.answer past c)

/-- Without partial allocation, an allocation grants all units or none. -/
def GrantsWhole (r : CapacityResource) (past : List PoolCall) (c : PoolCall) : Prop :=
  r.allowPartial = false → ∀ memberId units granted, c = .take memberId units →
    r.machine.answer past c = .granted granted → granted = units ∨ granted = 0

/-- A release is from a member that holds something, and an allocation that must not be partial
fits into the units that are left, if any are. -/
def AsksWhatFits (r : CapacityResource) (past : List PoolCall) (c : PoolCall) : Prop :=
  (∀ memberId units, c = .release memberId units →
    ReleasesFrom (r.machine.after past).allocated memberId units) ∧
  (r.allowPartial = false → ∀ memberId units, c = .take memberId units →
    0 < (r.machine.after past).available → units ≤ (r.machine.after past).available)

/-- An allocation grants all units or none exactly when they fit, or none are left. -/
private theorem granted_iff (r : CapacityResource) (memberId : String) (units : ℤ) :
    (∀ granted, (r.call (.take memberId units)).1 = .granted granted →
      granted = units ∨ granted = 0) ↔ (0 < r.available → units ≤ r.available) := by
  unfold call allocate
  dsimp only
  split_ifs with hunits havailable hgranted <;>
    simp only [PoolAnswer.settle, PoolAnswer.granted.injEq, reduceCtorEq, false_implies,
      implies_true, forall_eq', true_iff]
  · omega
  · exact iff_of_true (Or.inr trivial) fun hleft => absurd hleft (not_lt.mpr havailable)
  · omega
  · omega

private theorem call_fits {r : CapacityResource} (h : HoldingsFit r.capacity r.allocated)
    (c : PoolCall) : (r.call c).2.capacity = r.capacity ∧
      HoldingsFit r.capacity (r.call c).2.allocated := by
  cases c with
  | take memberId units =>
    have hfit := h.fit
    have hheld := h.unitsHeld_nonneg memberId
    unfold call allocate
    dsimp only
    split_ifs with hunits havailable hgranted
    · exact ⟨rfl, h⟩
    · exact ⟨rfl, h⟩
    · exact ⟨rfl, h⟩
    · refine ⟨rfl, h.insert (by omega) ?_⟩
      have hle : min units r.available ≤ r.capacity - r.allocated.sumValues id := min_le_right _ _
      omega
  | release memberId units =>
    rw [call_release]
    cases hok : releaseUnits r.allocated memberId units with
    | error e => exact ⟨rfl, h⟩
    | ok x => exact ⟨rfl, h.release hok⟩

/-- The holdings fit into the capacity in every run. -/
theorem holdingsFit {r : CapacityResource} (hstart : r.allocated = .empty)
    (calls : List PoolCall) : (r.machine.after calls).capacity = r.capacity ∧
      HoldingsFit r.capacity (r.machine.after calls).allocated := by
  induction calls using List.reverseRecOn with
  | nil =>
    refine ⟨rfl, ?_, ?_⟩
    · intro memberId units hget
      rw [CallMachine.after_nil] at hget
      change r.allocated.get? memberId = some units at hget
      rw [hstart] at hget
      cases hget
    · change r.allocated.sumValues id ≤ r.capacity
      rw [hstart]
      exact r.capacity_pos.le
  | append_singleton calls c ih =>
    obtain ⟨hcapacity, hfit⟩ := ih
    rw [← hcapacity] at hfit ⊢
    rw [CallMachine.after_concat]
    exact call_fits hfit c

/-- What holds of a run that the resource serves as a pool: the holdings are positive and fit,
releases give back what is held, and without partial allocation units are granted whole. -/
def Serves (r : CapacityResource) (calls : List PoolCall) : Prop :=
  (∀ past rest, calls = past ++ rest →
    HoldingsFit r.capacity (r.machine.after past).allocated) ∧
  EachCall r.Releases calls ∧ EachCall r.GrantsWhole calls

/-- A capacity resource serves exactly the clients that ask for what fits and release from
members that hold something. -/
theorem serves_iff {r : CapacityResource} (hstart : r.allocated = .empty)
    {calls : List PoolCall} : r.Serves calls ↔ EachCall r.AsksWhatFits calls := by
  have hrelease : ∀ past memberId units,
      GivesBack (r.machine.after past).allocated memberId units
          (r.machine.answer past (.release memberId units)) ↔
        ReleasesFrom (r.machine.after past).allocated memberId units :=
    fun past _ _ => givesBack_iff (holdingsFit hstart past).2 (r.machine.after past)
      fun holders => { r.machine.after past with allocated := holders }
  have hgrant : ∀ past memberId units,
      (∀ granted, r.machine.answer past (.take memberId units) = .granted granted →
        granted = units ∨ granted = 0) ↔
        (0 < (r.machine.after past).available → units ≤ (r.machine.after past).available) :=
    fun past memberId units => granted_iff (r.machine.after past) memberId units
  constructor
  · rintro ⟨-, hreleases, hgrants⟩ past c rest hcalls
    constructor
    · rintro memberId units rfl
      exact (hrelease past memberId units).mp (hreleases past _ rest hcalls memberId units rfl)
    · rintro hpartial memberId units rfl
      exact (hgrant past memberId units).mp fun granted =>
        hgrants past _ rest hcalls hpartial memberId units granted rfl
  · intro hasks
    refine ⟨fun past rest _ => (holdingsFit hstart past).2, ?_, ?_⟩
    · rintro past c rest hcalls memberId units rfl
      exact (hrelease past memberId units).mpr
        ((hasks past _ rest hcalls).1 memberId units rfl)
    · rintro past c rest hcalls hpartial memberId units granted rfl
      exact (hgrant past memberId units).mpr
        ((hasks past _ rest hcalls).2 hpartial memberId units rfl) granted

end CapacityResource

/-! ### Bounded resources -/

namespace BoundedResource

/-- Every release of a run answers what it gives back, and none of them raises. -/
def Releases (r : BoundedResource) (past : List PoolCall) (c : PoolCall) : Prop :=
  ∀ memberId units, c = .release memberId units →
    GivesBack (r.machine.after past).holders memberId units (r.machine.answer past c)

/-- A release is from a member that holds something. -/
def AsksWhatIsHeld (r : BoundedResource) (past : List PoolCall) (c : PoolCall) : Prop :=
  ∀ memberId units, c = .release memberId units →
    ReleasesFrom (r.machine.after past).holders memberId units

private theorem call_fits {r : BoundedResource} (h : HoldingsFit r.capacity r.holders)
    (c : PoolCall) : (r.call c).2.capacity = r.capacity ∧
      HoldingsFit r.capacity (r.call c).2.holders := by
  cases c with
  | take memberId units =>
    have hfit := h.fit
    have hheld := h.unitsHeld_nonneg memberId
    unfold call acquire available used
    dsimp only
    split_ifs with hunits havailable
    · exact ⟨rfl, h⟩
    · exact ⟨rfl, h⟩
    · exact ⟨rfl, h.insert (by omega) (by omega)⟩
  | release memberId units =>
    rw [call_release]
    cases hok : releaseUnits r.holders memberId units with
    | error e => exact ⟨rfl, h⟩
    | ok x => exact ⟨rfl, h.release hok⟩

/-- The holdings fit into the capacity in every run. -/
theorem holdingsFit {r : BoundedResource} (hstart : r.holders = .empty)
    (calls : List PoolCall) : (r.machine.after calls).capacity = r.capacity ∧
      HoldingsFit r.capacity (r.machine.after calls).holders := by
  induction calls using List.reverseRecOn with
  | nil =>
    refine ⟨rfl, ?_, ?_⟩
    · intro memberId units hget
      rw [CallMachine.after_nil] at hget
      change r.holders.get? memberId = some units at hget
      rw [hstart] at hget
      cases hget
    · change r.holders.sumValues id ≤ r.capacity
      rw [hstart]
      exact r.capacity_pos.le
  | append_singleton calls c ih =>
    obtain ⟨hcapacity, hfit⟩ := ih
    rw [← hcapacity] at hfit ⊢
    rw [CallMachine.after_concat]
    exact call_fits hfit c

/-- What holds of a run that the resource serves as a pool: the holdings are positive and fit,
and releases give back what is held. -/
def Serves (r : BoundedResource) (calls : List PoolCall) : Prop :=
  (∀ past rest, calls = past ++ rest →
    HoldingsFit r.capacity (r.machine.after past).holders) ∧ EachCall r.Releases calls

/-- A bounded resource serves exactly the clients that release from members that hold
something. -/
theorem serves_iff {r : BoundedResource} (hstart : r.holders = .empty) {calls : List PoolCall} :
    r.Serves calls ↔ EachCall r.AsksWhatIsHeld calls := by
  have hrelease : ∀ past memberId units,
      GivesBack (r.machine.after past).holders memberId units
          (r.machine.answer past (.release memberId units)) ↔
        ReleasesFrom (r.machine.after past).holders memberId units :=
    fun past _ _ => givesBack_iff (holdingsFit hstart past).2 (r.machine.after past)
      fun holders => { r.machine.after past with holders := holders }
  constructor
  · rintro ⟨-, hreleases⟩ past c rest hcalls memberId units rfl
    exact (hrelease past memberId units).mp (hreleases past _ rest hcalls memberId units rfl)
  · intro hasks
    refine ⟨fun past rest _ => (holdingsFit hstart past).2, ?_⟩
    rintro past c rest hcalls memberId units rfl
    exact (hrelease past memberId units).mpr (hasks past _ rest hcalls memberId units rfl)

end BoundedResource

/-! ### Both pools -/

/-- **The resource pools serve exactly the clients that release from members that hold something
and, from a capacity resource without partial allocation, ask for what fits.** Then every
holding is positive, the units in use are the sum of the holdings and fit into the capacity, a
release returns the smaller of the units and the holding, and units are granted whole. -/
theorem pools_serve_iff (r : CapacityResource) (b : BoundedResource) (calls : List PoolCall)
    (hr : r.allocated = .empty) (hb : b.holders = .empty) :
    (r.Serves calls ↔ EachCall r.AsksWhatFits calls) ∧
      (b.Serves calls ↔ EachCall b.AsksWhatIsHeld calls) :=
  ⟨CapacityResource.serves_iff hr, BoundedResource.serves_iff hb⟩

private theorem four_units_pos : (0 : ℤ) < 4 := by decide

/-- A capacity resource of four units. -/
def sampleCapacity : CapacityResource :=
  { name := "compute", capacity := 4, capacity_pos := four_units_pos }

/-- A bounded resource of four slots. -/
def sampleBounded : BoundedResource :=
  { name := "sram_port", capacity := 4, capacity_pos := four_units_pos }

/-- The theorem at runs that release in part. -/
theorem pools_serve_iff_sample :
    sampleCapacity.Serves [.take "a" 3, .release "a" (some 2), .release "a" none] ∧
      sampleBounded.Serves [.take "a" 3, .take "b" 2, .release "a" (some 2)] := by
  constructor
  · refine (pools_serve_iff sampleCapacity sampleBounded _ rfl rfl).1.mpr ?_
    simp only [eachCall_cons, eachCall_nil, CapacityResource.AsksWhatFits, PoolCall.release.injEq,
      PoolCall.take.injEq, ReleasesFrom, reduceCtorEq, false_implies, implies_true, and_true,
      true_and, and_imp, forall_eq', forall_apply_eq_imp_iff, Option.some.injEq]
    exact ⟨fun _ _ => by decide, Or.inr ⟨by decide, by decide⟩⟩
  · refine (pools_serve_iff sampleCapacity sampleBounded _ rfl rfl).2.mpr ?_
    simp only [eachCall_cons, eachCall_nil, BoundedResource.AsksWhatIsHeld,
      PoolCall.release.injEq, ReleasesFrom, reduceCtorEq, false_implies, implies_true, and_true,
      true_and, and_imp, forall_eq', forall_apply_eq_imp_iff, Option.some.injEq]
    exact Or.inr ⟨by decide, by decide⟩

/-- A capacity resource grants one of three units although partial allocation is not allowed,
and a bounded resource raises when a member that holds nothing releases a unit. -/
theorem partial_grant_and_release_unknown :
    (¬∀ (r : CapacityResource) (calls : List PoolCall), r.allocated = .empty → r.Serves calls) ∧
      ¬∀ (r : BoundedResource) (calls : List PoolCall), r.holders = .empty → r.Serves calls := by
  constructor
  · intro h
    have hwhole := (h sampleCapacity [.take "a" 3, .take "b" 3] rfl).2.2
    rcases hwhole [_] _ [] rfl rfl "b" 3 1 rfl rfl with hgranted | hgranted
    · exact absurd hgranted (by decide)
    · exact absurd hgranted (by decide)
  · intro h
    have hreleases := (h sampleBounded [.release "a" (some 1)] rfl).2
    have hanswer := hreleases [] _ [] rfl "a" (some 1) rfl
    cases hanswer

end NpuArc
