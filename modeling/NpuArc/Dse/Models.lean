import NpuArc.Contracts.Errors
import NpuArc.Library.Dict
import Mathlib.Data.Rat.Defs

/-!
# Value objects of the design-space generator

Axis values are compared by Python's equality, which is a Boolean equality here: the
integer 1, the float 1.0 and `True` are equal without being the same value. A missing axis
reads as `None`. A constraint applies to the combinations that match its condition, and
then requires values on some axes and excludes others.
-/

namespace NpuArc

namespace Dse

/-- A type of axis values with Python's equality and its `None`. -/
class PyValue (V : Type*) extends BEq V where
  /-- The value read from an axis that a combination lacks. -/
  null : V

/-- A scalar of a configuration file, with floats as exact rationals. -/
inductive Scalar
  | null
  | bool (b : Bool)
  | int (n : ℤ)
  | float (q : ℚ)
  | str (s : String)
  deriving DecidableEq

namespace Scalar

/-- What Python's equality and hashing see of a scalar: a number or a text. -/
inductive Key
  | null
  | number (q : ℚ)
  | str (s : String)
  deriving DecidableEq

/-- The comparison key of a scalar; a Boolean counts as the number 0 or 1. -/
def key : Scalar → Key
  | .null => .null
  | .bool b => .number (if b then 1 else 0)
  | .int n => .number n
  | .float q => .number q
  | .str s => .str s

instance : PyValue Scalar where
  beq a b := decide (a.key = b.key)
  null := .null

theorem beq_iff {a b : Scalar} : (a == b) = true ↔ a.key = b.key := decide_eq_true_iff

instance : EquivBEq Scalar where
  rfl := beq_iff.mpr rfl
  symm h := beq_iff.mpr (beq_iff.mp h).symm
  trans h h' := beq_iff.mpr ((beq_iff.mp h).trans (beq_iff.mp h'))

/-- Numbers are ordered among each other, and texts are; other comparisons are refused. -/
def le (a b : Scalar) : Bool :=
  match a.key, b.key with
  | .number p, .number q => decide (p ≤ q)
  | .str s, .str t => decide (s ≤ t)
  | _, _ => false

instance : LE Scalar := ⟨fun a b => a.le b = true⟩

instance : DecidableLE Scalar := fun a b => inferInstanceAs (Decidable (a.le b = true))

end Scalar

/-- An assignment of values to axes. -/
abbrev Combo (V : Type*) := Dict String V

/-- The value of a combination on an axis, `None` when the axis is missing. -/
def Combo.value {V : Type*} [PyValue V] (combo : Combo V) (axis : String) : V :=
  (combo.get? axis).getD PyValue.null

/-- Specification for one orthogonal axis. -/
structure AxisSpec (V : Type*) where
  name : String
  values : List V
  /-- Axes without values are rejected when the configuration is read. -/
  values_ne : values ≠ []

/-- A rule: the values allowed on each of its axes. -/
abbrev Rule (V : Type*) := Dict String (List V)

/-- Whether a combination has an allowed value on every axis of a rule. -/
def Rule.holds {V : Type*} [PyValue V] (rule : Rule V) (combo : Combo V) : Bool :=
  rule.entries.all fun e => e.2.contains (combo.value e.1)

/-- Conditional constraint with typed reason code. -/
structure Constraint (V : Type*) where
  name : String
  when : Rule V
  require : Rule V := .empty
  excludeCombinations : List (Rule V) := []
  reason : String := ""

namespace Constraint

variable {V : Type*} [PyValue V]

/-- Whether the combination triggers this constraint. -/
def matchesCombo (c : Constraint V) (combo : Combo V) : Bool := c.when.holds combo

/-- The axes that violate a `require` rule. -/
def requireViolations (c : Constraint V) (combo : Combo V) : List String :=
  (c.require.entries.filter fun e => !e.2.contains (combo.value e.1)).map Prod.fst

/-- Whether the combination matches an explicit excluded combination. -/
def excludes (c : Constraint V) (combo : Combo V) : Bool :=
  c.excludeCombinations.any fun rule => rule.holds combo

end Constraint

/-- A single normalized design-point candidate. -/
structure DesignPoint (V H : Type*) where
  designPointId : String
  hardwareConfig : H
  scenarioRef : String
  workloadRef : Option String
  axisValues : Combo V

end Dse

end NpuArc
