import NpuArc.Contracts.Errors
import NpuArc.Library.DictSum

/-!
# Scheduler resources

Capacity resources such as a compute engine, and bounded resources such as an
SRAM port. Both hold a number of units for each member and release them in the
same way. The scenario runner reads only the capacity of a resource and keeps its
own account of the units in use.
-/

namespace NpuArc

/-- A reusable resource with a positive number of units. -/
structure CapacityResource where
  name : String
  capacity : ℤ
  allowPartial : Bool := false
  /-- The units held by each member. -/
  allocated : Dict String ℤ := .empty
  capacity_pos : 0 < capacity

/-- A resource without allocations; the capacity must be positive. -/
def CapacityResource.new (name : String) (capacity : ℤ) : Except Error CapacityResource :=
  if h : 0 < capacity then .ok { name := name, capacity := capacity, capacity_pos := h }
  else .error (.resourceError ("capacity resource " ++ reprStr name ++
    " must have positive capacity, got " ++ toString capacity) name)

theorem CapacityResource.new_ok {name : String} {capacity : ℤ} {r : CapacityResource}
    (h : CapacityResource.new name capacity = .ok r) : r.name = name ∧ r.capacity = capacity := by
  unfold CapacityResource.new at h
  split at h
  · cases h
    exact ⟨rfl, rfl⟩
  · cases h

/-- The units that a member holds. -/
def unitsHeld (holders : Dict String ℤ) (memberId : String) : ℤ :=
  (holders.get? memberId).getD 0

/-- Release units of a member, by default all that it holds. Returns the released units. -/
def releaseUnits (holders : Dict String ℤ) (memberId : String) (units : Option ℤ) :
    Except Error (ℤ × Dict String ℤ) :=
  let held := unitsHeld holders memberId
  let units := units.getD held
  if units ≤ 0 then .ok (0, holders)
  else
    let released := min units held
    if released = held then
      -- `del` of a member without an entry
      if holders.contains memberId then .ok (released, holders.erase memberId)
      else .error (.keyError memberId)
    else .ok (released, holders.insert memberId (held - released))

namespace CapacityResource

def used (r : CapacityResource) : ℤ := r.allocated.sumValues id

def available (r : CapacityResource) : ℤ := r.capacity - r.used

/-- Allocate units to a member, as many as there are left. Returns the allocated units. -/
def allocate (r : CapacityResource) (memberId : String) (units : ℤ) :
    Except Error (ℤ × CapacityResource) :=
  if units ≤ 0 then
    .error (.resourceError ("allocate units must be positive, got " ++ toString units) r.name)
  else if r.available ≤ 0 then .ok (0, r)
  else
    let granted := min units r.available
    if granted ≤ 0 then .ok (0, r)
    else .ok (granted, { r with
      allocated := r.allocated.insert memberId (unitsHeld r.allocated memberId + granted) })

/-- Release units of a member, by default all. -/
def release (r : CapacityResource) (memberId : String) (units : Option ℤ) :
    Except Error (ℤ × CapacityResource) :=
  (releaseUnits r.allocated memberId units).map fun x => (x.1, { r with allocated := x.2 })

end CapacityResource

/-- A bounded resource with a positive number of units. -/
structure BoundedResource where
  name : String
  capacity : ℤ
  /-- The units held by each member. -/
  holders : Dict String ℤ := .empty
  capacity_pos : 0 < capacity

namespace BoundedResource

/-- A resource without holders; the capacity must be positive. -/
def new (name : String) (capacity : ℤ) : Except Error BoundedResource :=
  if h : 0 < capacity then .ok { name := name, capacity := capacity, capacity_pos := h }
  else .error (.resourceError ("bounded resource " ++ reprStr name ++
    " must have positive capacity, got " ++ toString capacity) name)

def used (r : BoundedResource) : ℤ := r.holders.sumValues id

def available (r : BoundedResource) : ℤ := r.capacity - r.used

/-- Acquire units for a member, all of them or none. Returns whether it got them. -/
def acquire (r : BoundedResource) (memberId : String) (units : ℤ) :
    Except Error (Bool × BoundedResource) :=
  if units ≤ 0 then
    .error (.resourceError ("acquire units must be positive, got " ++ toString units) r.name)
  else if r.available < units then .ok (false, r)
  else .ok (true, { r with
    holders := r.holders.insert memberId (unitsHeld r.holders memberId + units) })

/-- Release units of a member, by default all. -/
def release (r : BoundedResource) (memberId : String) (units : Option ℤ) :
    Except Error (ℤ × BoundedResource) :=
  (releaseUnits r.holders memberId units).map fun x => (x.1, { r with holders := x.2 })

end BoundedResource

end NpuArc
