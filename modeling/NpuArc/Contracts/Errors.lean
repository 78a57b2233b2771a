import Mathlib.Data.List.Forall2
import Mathlib.Tactic.Common

/-!
# Typed errors

The exceptions that the scheduler and the scenario code raise explicitly, with
their messages and field paths. Fallible functions return `Except Error`, and the
inversion lemmas below take a successful computation apart into its steps.
-/

namespace NpuArc

/-- An exception raised by a `raise` statement of the modelled code. -/
inductive Error
  /-- A scheduling invariant violated at runtime. -/
  | schedulerError (message : String)
  /-- A structurally or semantically invalid configuration. -/
  | configError (message fieldPath : String)
  /-- A value outside the domain of a function. -/
  | valueError (message : String)
  /-- An item enqueued into a full bounded FIFO, or dequeued from an empty one. -/
  | queueFullError (message : String)
  /-- A resource that cannot be created or allocated. -/
  | resourceError (message resource : String)
  /-- A missing dictionary key. -/
  | keyError (key : String)
  /-- An index beyond the end of a sequence. -/
  | indexError (message : String)
  /-- A symbolic dimension that is unbound. -/
  | dimensionBindingError (message dimension : String)
  /-- An operator that is not in the registry, or is unsupported. -/
  | unsupportedOperatorError (message opType nodeId : String)
  /-- Missing coverage on a required axis. -/
  | coverageError (message : String) (missingAxes : List String)
  deriving DecidableEq

/-- Whether an error is a `SchedulerError`. -/
def Error.isSchedulerError : Error → Bool
  | .schedulerError _ => true
  | _ => false

/-- The quoted form of a string in an error message. -/
def reprStr (s : String) : String := "'" ++ s ++ "'"

/-- The printed form of a list of strings in an error message. -/
def reprList (l : List String) : String :=
  "[" ++ String.intercalate ", " (l.map reprStr) ++ "]"

/-- A sequence of two computations succeeds exactly when both do. -/
theorem bind_eq_ok {ε α β : Type} {x : Except ε α} {f : α → Except ε β} {b : β} :
    (x >>= f) = .ok b ↔ ∃ a, x = .ok a ∧ f a = .ok b := by
  cases x with
  | error e => simp [Bind.bind, Except.bind]
  | ok a => simp [Bind.bind, Except.bind]

/-- A computation that succeeds hands its value to the next one. -/
theorem bind_eq_ok_left {ε α β : Type} (a : α) (f : α → Except ε β) :
    ((.ok a : Except ε α) >>= f) = f a := rfl

/-- A sequence of two computations fails exactly when the first one fails, or it
succeeds and the second one fails. -/
theorem bind_eq_error {ε α β : Type} {x : Except ε α} {f : α → Except ε β} {e : ε} :
    (x >>= f) = .error e ↔ x = .error e ∨ ∃ a, x = .ok a ∧ f a = .error e := by
  cases x with
  | error e' => simp [Bind.bind, Except.bind]
  | ok a => simp [Bind.bind, Except.bind]

/-- What every successful step preserves holds after a successful fold. -/
theorem foldlM_invariant {ε α β : Type} {f : β → α → Except ε β} {l : List α} {b r : β}
    (P : β → Prop) (h : l.foldlM f b = .ok r) (hb : P b)
    (step : ∀ a ∈ l, ∀ b b', P b → f b a = .ok b' → P b') : P r := by
  induction l generalizing b with
  | nil =>
    cases h
    exact hb
  | cons a l ih =>
    rw [List.foldlM_cons, bind_eq_ok] at h
    obtain ⟨b', hstep, hrest⟩ := h
    exact ih hrest (step a List.mem_cons_self b b' hb hstep)
      fun a' ha' => step a' (List.mem_cons_of_mem a ha')

/-- A check of every element of a list succeeds exactly when each check does. -/
theorem forM_eq_ok {ε α : Type} {f : α → Except ε Unit} {l : List α} :
    l.forM f = .ok () ↔ ∀ a ∈ l, f a = .ok () := by
  induction l with
  | nil => exact ⟨fun _ _ h => absurd h List.not_mem_nil, fun _ => rfl⟩
  | cons a l ih =>
    rw [List.forM_eq_forM, List.forM_cons, bind_eq_ok, List.forall_mem_cons, ← ih]
    constructor
    · rintro ⟨_, ha, hl⟩
      exact ⟨ha, hl⟩
    · rintro ⟨ha, hl⟩
      exact ⟨(), ha, hl⟩

/-- A computation on every element of a list succeeds with the list of its results. -/
theorem mapM_eq_ok {ε α β : Type} {f : α → Except ε β} {l : List α} {bs : List β} :
    l.mapM f = .ok bs ↔ List.Forall₂ (fun a b => f a = .ok b) l bs := by
  induction l generalizing bs with
  | nil =>
    rw [List.mapM_nil, List.forall₂_nil_left_iff]
    constructor
    · intro h
      cases h
      rfl
    · rintro rfl
      rfl
  | cons a l ih =>
    rw [List.mapM_cons, bind_eq_ok, List.forall₂_cons_left_iff]
    constructor
    · rintro ⟨b, ha, h⟩
      obtain ⟨bs, hbs, h⟩ := bind_eq_ok.mp h
      cases h
      exact ⟨b, bs, ha, ih.mp hbs, rfl⟩
    · rintro ⟨b, bs, ha, hbs, rfl⟩
      exact ⟨b, ha, bind_eq_ok.mpr ⟨bs, ih.mpr hbs, rfl⟩⟩

/-- A computation that succeeds on every element of a list succeeds on the list. -/
theorem exists_mapM_eq_ok {ε α β : Type} {f : α → Except ε β} {l : List α}
    (h : ∀ a ∈ l, ∃ b, f a = .ok b) : ∃ bs, l.mapM f = .ok bs := by
  induction l with
  | nil => exact ⟨[], rfl⟩
  | cons a l ih =>
    obtain ⟨b, hb⟩ := h a List.mem_cons_self
    obtain ⟨bs, hbs⟩ := ih fun a' ha' => h a' (List.mem_cons_of_mem a ha')
    exact ⟨b :: bs, mapM_eq_ok.mpr (List.Forall₂.cons hb (mapM_eq_ok.mp hbs))⟩

/-- Every member of a list has its counterpart in a related list. -/
theorem exists_mem_of_forall₂ {α β : Type} {R : α → β → Prop} {l : List α} {l' : List β}
    (h : List.Forall₂ R l l') {a : α} (ha : a ∈ l) : ∃ b ∈ l', R a b := by
  induction h with
  | nil => cases ha
  | @cons c b l l' hcb _ ih =>
    rcases List.mem_cons.mp ha with rfl | ha
    · exact ⟨b, List.mem_cons_self, hcb⟩
    · obtain ⟨b', hb', hab⟩ := ih ha
      exact ⟨b', List.mem_cons_of_mem b hb', hab⟩

/-- A fold over nested lists is a nested fold. -/
theorem foldlM_flatMap {ε α β γ : Type} (f : γ → β → Except ε γ) (g : α → List β) (l : List α)
    (c : γ) : (l.flatMap g).foldlM f c = l.foldlM (fun c a => (g a).foldlM f c) c := by
  induction l generalizing c with
  | nil => rfl
  | cons a l ih =>
    rw [List.flatMap_cons, List.foldlM_append, List.foldlM_cons]
    congr 1
    funext c
    exact ih c

/-- A fold that skips some elements. -/
theorem foldlM_skip {ε α β : Type} (p : α → Bool) (f : β → α → Except ε β) (l : List α) (b : β) :
    l.foldlM (fun b a => if p a then .ok b else f b a) b =
      (l.filter fun a => !p a).foldlM f b := by
  rw [List.foldlM_filter]
  congr 1
  funext b a
  cases p a <;> rfl

theorem toOption_eq_some {ε α : Type} {x : Except ε α} {a : α} :
    x.toOption = some a ↔ x = .ok a := by
  cases x with
  | error e => simp [Except.toOption]
  | ok b => simp [Except.toOption]

end NpuArc
