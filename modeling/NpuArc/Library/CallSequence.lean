import Mathlib.Data.List.Basic
import Mathlib.Data.List.Induction

/-!
# Sequences of calls

An object with methods is a state, and a function that gives the answer of a
call together with the next state. A client is a list of calls. The conditions
on a client and the invariants of the object are stated about the calls made so
far, and go through by induction on the last call.
-/

namespace NpuArc

variable {σ ι ω : Type*}

/-- An object: its first state, and the answer and next state of each call. -/
structure CallMachine (σ ι ω : Type*) where
  start : σ
  call : σ → ι → ω × σ

namespace CallMachine

/-- The state of an object after a sequence of calls. -/
def after (m : CallMachine σ ι ω) (calls : List ι) : σ :=
  calls.foldl (fun s c => (m.call s c).2) m.start

/-- What a call answers after a sequence of calls. -/
def answer (m : CallMachine σ ι ω) (calls : List ι) (c : ι) : ω := (m.call (m.after calls) c).1

@[simp] theorem after_nil (m : CallMachine σ ι ω) : m.after [] = m.start := rfl

@[simp] theorem after_concat (m : CallMachine σ ι ω) (calls : List ι) (c : ι) :
    m.after (calls ++ [c]) = (m.call (m.after calls) c).2 := by
  simp [after]

/-- The calls of a sequence that starts in a given state, each with its answer. -/
def traceFrom (m : CallMachine σ ι ω) (s : σ) : List ι → List (ι × ω)
  | [] => []
  | c :: calls => (c, (m.call s c).1) :: m.traceFrom (m.call s c).2 calls

/-- The calls of a sequence, each with its answer. -/
def trace (m : CallMachine σ ι ω) (calls : List ι) : List (ι × ω) := m.traceFrom m.start calls

private theorem traceFrom_concat (m : CallMachine σ ι ω) (s : σ) (calls : List ι) (c : ι) :
    m.traceFrom s (calls ++ [c]) = m.traceFrom s calls ++
      [(c, (m.call (calls.foldl (fun s c => (m.call s c).2) s) c).1)] := by
  induction calls generalizing s with
  | nil => rfl
  | cons d calls ih => simp only [List.cons_append, traceFrom, ih, List.foldl_cons]

@[simp] theorem trace_nil (m : CallMachine σ ι ω) : m.trace [] = [] := rfl

@[simp] theorem trace_concat (m : CallMachine σ ι ω) (calls : List ι) (c : ι) :
    m.trace (calls ++ [c]) = m.trace calls ++ [(c, m.answer calls c)] :=
  m.traceFrom_concat m.start calls c

end CallMachine

/-- A condition holds at every call of a sequence, given the calls before it. -/
def EachCall (ok : List ι → ι → Prop) (calls : List ι) : Prop :=
  ∀ past c rest, calls = past ++ c :: rest → ok past c

variable {ok : List ι → ι → Prop} {calls : List ι} {c : ι}

@[simp] theorem eachCall_nil : EachCall ok [] := by
  intro past c rest h
  simp at h

@[simp] theorem eachCall_concat : EachCall ok (calls ++ [c]) ↔ EachCall ok calls ∧ ok calls c := by
  constructor
  · intro h
    refine ⟨fun past d rest hcalls => h past d (rest ++ [c]) ?_, h calls c [] rfl⟩
    rw [hcalls, List.append_assoc, List.cons_append]
  · rintro ⟨h, hlast⟩ past d rest hcalls
    rcases List.eq_nil_or_concat' rest with rfl | ⟨init, last, rfl⟩
    · obtain ⟨rfl, hd⟩ := List.append_inj' hcalls rfl
      cases hd
      exact hlast
    · rw [← List.cons_append, ← List.append_assoc] at hcalls
      obtain ⟨hinit, -⟩ := List.append_inj' hcalls rfl
      exact h past d init hinit

/-- The first call is made with nothing before it, the others after it. -/
theorem eachCall_cons :
    EachCall ok (c :: calls) ↔ ok [] c ∧ EachCall (fun past => ok (c :: past)) calls := by
  constructor
  · intro h
    exact ⟨h [] c calls rfl, fun past d rest hcalls => h (c :: past) d rest (by rw [hcalls]; rfl)⟩
  · rintro ⟨hfirst, h⟩ past d rest hcalls
    cases past with
    | nil =>
      cases hcalls
      exact hfirst
    | cons e past =>
      obtain ⟨rfl, htail⟩ := List.cons.inj hcalls
      exact h past d rest htail

/-- A weaker condition holds wherever a stronger one does. -/
theorem EachCall.mono {ok' : List ι → ι → Prop} (h : EachCall ok calls)
    (himp : ∀ past c, ok past c → ok' past c) : EachCall ok' calls :=
  fun past c rest hcalls => himp past c (h past c rest hcalls)

/-- The calls before a point of a sequence meet the condition too. -/
theorem EachCall.of_append {past rest : List ι} (h : EachCall ok (past ++ rest)) :
    EachCall ok past := by
  intro past' c rest' hpast
  exact h past' c (rest' ++ rest) (by simp [hpast])

/-- What holds of no calls, and is kept by each call that meets the condition, holds
of every sequence whose calls meet it. -/
theorem EachCall.induction {P : List ι → Prop} (h : EachCall ok calls) (start : P [])
    (step : ∀ past c, EachCall ok past → ok past c → P past → P (past ++ [c])) : P calls := by
  induction calls using List.reverseRecOn with
  | nil => exact start
  | append_singleton calls c ih =>
    obtain ⟨hcalls, hlast⟩ := eachCall_concat.mp h
    exact step calls c hcalls hlast (ih hcalls)

end NpuArc
