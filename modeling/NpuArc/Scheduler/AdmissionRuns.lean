import NpuArc.Library.CallSequence
import NpuArc.Library.DictSum
import NpuArc.Scheduler.Policies
import Mathlib.Tactic.Linarith
import Mathlib.Tactic.Abel

/-!
# Runs of the admission controller

The controller keeps its totals beside the dictionary of reservations. A client
checks, admits and releases jobs in any order. The totals are the sums over the
reservations, and a release undoes an admission, exactly as long as no job is
admitted that is still in flight: admitting it again overwrites its reservation
and keeps the old demand in the totals.
-/

namespace NpuArc

/-- The demand of one admission request. -/
structure AdmissionRequest where
  jobId : String
  memoryBytes : ℤ := 0
  bandwidthFraction : ℚ := 0
  priority : ℤ := 0
  exclusiveResources : List String := []
  lowerPriorityHolders : Dict String ℤ := .empty

/-- The calls of a client of the admission controller. -/
inductive AdmissionCall
  | check (request : AdmissionRequest)
  | admitJob (request : AdmissionRequest)
  | release (jobId : String)

/-- What the admission controller answers. -/
inductive AdmissionAnswer
  | result (result : AdmissionResult)
  | released (found : Bool)

namespace AdmissionController

/-- The check of a request. -/
def checkRequest (a : AdmissionController) (r : AdmissionRequest) : AdmissionResult :=
  a.check r.jobId r.memoryBytes r.bandwidthFraction r.priority r.exclusiveResources
    r.lowerPriorityHolders

/-- The admission of a request. -/
def admitRequest (a : AdmissionController) (r : AdmissionRequest) :
    AdmissionResult × AdmissionController :=
  a.admitJob r.jobId r.memoryBytes r.bandwidthFraction r.priority r.exclusiveResources
    r.lowerPriorityHolders

/-- The answer of a call and the controller after it. -/
def call (a : AdmissionController) : AdmissionCall → AdmissionAnswer × AdmissionController
  | .check r => (.result (a.checkRequest r), a)
  | .admitJob r => (.result (a.admitRequest r).1, (a.admitRequest r).2)
  | .release jobId => (.released (a.release jobId).1, (a.release jobId).2)

/-- The controller as an object. -/
def machine (a : AdmissionController) :
    CallMachine AdmissionController AdmissionCall AdmissionAnswer := ⟨a, call⟩

/-! ### Single calls -/

/-- The reservation recorded for a request. -/
def reservation (r : AdmissionRequest) : Reservation :=
  ⟨r.memoryBytes, r.bandwidthFraction, r.priority, r.exclusiveResources⟩

theorem admitRequest_of_refused {a : AdmissionController} {r : AdmissionRequest}
    (h : (a.checkRequest r).admitted = false) : a.admitRequest r = (a.checkRequest r, a) := by
  unfold admitRequest admitJob
  unfold checkRequest at h ⊢
  simp [h]

theorem admitRequest_of_admitted {a : AdmissionController} {r : AdmissionRequest}
    (h : (a.checkRequest r).admitted = true) :
    (a.admitRequest r).1.admitted = true ∧ (a.admitRequest r).2 =
      { a with
        memoryUsedBytes := a.memoryUsedBytes + r.memoryBytes
        bandwidthFractionUsed := a.bandwidthFractionUsed + r.bandwidthFraction
        inflight := a.inflight.insert r.jobId (reservation r) } := by
  unfold admitRequest admitJob
  unfold checkRequest at h
  simp [h, reservation]

/-- The answer of an admission is that of the check. -/
theorem admitRequest_fst (a : AdmissionController) (r : AdmissionRequest) :
    (a.admitRequest r).1.admitted = (a.checkRequest r).admitted := by
  cases h : (a.checkRequest r).admitted with
  | false => rw [admitRequest_of_refused h, h]
  | true => rw [(admitRequest_of_admitted h).1]

/-- What an admitted request satisfies. -/
theorem limits_of_admitted {a : AdmissionController} {r : AdmissionRequest}
    (h : (a.checkRequest r).admitted = true) :
    a.memoryUsedBytes + r.memoryBytes ≤ a.memoryAvailableBytes ∧
      a.inflightCount < a.maxInflightJobs ∧
      a.bandwidthFractionUsed + r.bandwidthFraction ≤ a.maxBandwidthFraction + 1 / 10 ^ 12 := by
  simp only [checkRequest, check, memoryFreeBytes, List.all_cons, Bool.and_eq_true,
    decide_eq_true_eq] at h
  obtain ⟨hmemory, hcount, hbandwidth, -⟩ := h
  have hfree := of_decide_eq_true hmemory
  exact ⟨by linarith, hcount, hbandwidth⟩

theorem release_of_none {a : AdmissionController} {jobId : String}
    (h : a.inflight.get? jobId = none) : a.release jobId = (false, a) := by
  simp [release, h]

theorem release_of_some {a : AdmissionController} {jobId : String} (info : Reservation)
    (h : a.inflight.get? jobId = some info) :
    a.release jobId = (true,
      { a with
        inflight := a.inflight.erase jobId
        memoryUsedBytes := a.memoryUsedBytes - info.memoryBytes
        bandwidthFractionUsed := a.bandwidthFractionUsed - info.bandwidthFraction }) := by
  simp [release, h]

/-- Releasing an admitted job at once restores the controller exactly when the job was not in
flight before. -/
theorem release_admitRequest_iff {a : AdmissionController} {r : AdmissionRequest}
    (h : (a.checkRequest r).admitted = true) :
    (a.admitRequest r).2.release r.jobId = (true, a) ↔ r.jobId ∉ a.inflight.keys := by
  rw [(admitRequest_of_admitted h).2, release_of_some (reservation r) (by simp)]
  constructor
  · intro heq
    have hinflight := congrArg (fun p => (Prod.snd p).inflight.get? r.jobId) heq
    rw [Dict.not_mem_keys]
    simpa using hinflight.symm
  · intro hnew
    simp [Dict.erase_insert _ (Dict.not_mem_keys.mp hnew), reservation]

/-- A call leaves the controller as it is, records an admitted request, or takes off a
reservation. -/
theorem call_cases (a : AdmissionController) (c : AdmissionCall) :
    (a.call c).2 = a ∨
    (∃ r, c = .admitJob r ∧ (a.checkRequest r).admitted = true ∧ (a.call c).2 =
      { a with
        memoryUsedBytes := a.memoryUsedBytes + r.memoryBytes
        bandwidthFractionUsed := a.bandwidthFractionUsed + r.bandwidthFraction
        inflight := a.inflight.insert r.jobId (reservation r) }) ∨
    ∃ jobId info, c = .release jobId ∧ a.inflight.get? jobId = some info ∧ (a.call c).2 =
      { a with
        inflight := a.inflight.erase jobId
        memoryUsedBytes := a.memoryUsedBytes - info.memoryBytes
        bandwidthFractionUsed := a.bandwidthFractionUsed - info.bandwidthFraction } := by
  cases c with
  | check r => exact Or.inl rfl
  | admitJob r =>
    cases h : (a.checkRequest r).admitted with
    | false =>
      left
      rw [call, admitRequest_of_refused h]
    | true => exact Or.inr (Or.inl ⟨r, rfl, h, (admitRequest_of_admitted h).2⟩)
  | release jobId =>
    cases hget : a.inflight.get? jobId with
    | none =>
      left
      rw [call, release_of_none hget]
    | some info =>
      right
      right
      refine ⟨jobId, info, rfl, hget, ?_⟩
      rw [call, release_of_some _ hget]

@[simp] theorem machine_call (a : AdmissionController) : a.machine.call = call := rfl

@[simp] theorem machine_start (a : AdmissionController) : a.machine.start = a := rfl

/-! ### The history of a run -/

/-- The request under which a job stands admitted: its last admission, unless the job was
released since. -/
def standing (trace : List (AdmissionCall × AdmissionAnswer)) (jobId : String) :
    Option AdmissionRequest :=
  trace.foldl (fun s e => match e with
    | (.admitJob r, .result result) => if r.jobId = jobId ∧ result.admitted = true then some r else s
    | (.release k, _) => if k = jobId then none else s
    | _ => s) none

/-- A client asks for no negative demand. -/
def NonNegative (_past : List AdmissionCall) (c : AdmissionCall) : Prop :=
  ∀ r, c = .check r ∨ c = .admitJob r → 0 ≤ r.memoryBytes ∧ 0 ≤ r.bandwidthFraction

/-- A client asks for the admission of a job in flight only when the check refuses it. -/
def AdmitsNew (a : AdmissionController) (past : List AdmissionCall) (c : AdmissionCall) : Prop :=
  ∀ r, c = .admitJob r → ((a.machine.after past).checkRequest r).admitted = true →
    r.jobId ∉ (a.machine.after past).inflight.keys

/-- A check or a refused admission changes nothing. -/
def KeepsRefused (a : AdmissionController) (past : List AdmissionCall) (c : AdmissionCall) :
    Prop :=
  ∀ r result, c = .check r ∨ c = .admitJob r ∧ result.admitted = false →
    a.machine.answer past c = .result result → a.machine.after (past ++ [c]) = a.machine.after past

/-- The release of a job that was just admitted restores the controller. -/
def ReleaseUndoes (a : AdmissionController) (past : List AdmissionCall) (c : AdmissionCall) :
    Prop :=
  ∀ r result, c = .admitJob r → a.machine.answer past c = .result result → result.admitted = true →
    (a.machine.after (past ++ [c])).release r.jobId = (true, a.machine.after past)

/-- The books of the controller: its totals are the sums over the jobs in flight and within the
limits, and a release takes off the demand of the admission that it matches. -/
structure Books (a : AdmissionController) (calls : List AdmissionCall) : Prop where
  memory : (a.machine.after calls).memoryUsedBytes =
    (a.machine.after calls).inflight.sumValues Reservation.memoryBytes
  bandwidth : (a.machine.after calls).bandwidthFractionUsed =
    (a.machine.after calls).inflight.sumValues Reservation.bandwidthFraction
  memory_le : (a.machine.after calls).memoryUsedBytes ≤ a.memoryAvailableBytes
  bandwidth_le : (a.machine.after calls).bandwidthFractionUsed ≤
    a.maxBandwidthFraction + 1 / 10 ^ 12
  count_le : (a.machine.after calls).inflightCount ≤ a.maxInflightJobs
  released : ∀ jobId r, standing (a.machine.trace calls) jobId = some r →
    (a.machine.after calls).release jobId = (true,
      { a.machine.after calls with
        inflight := (a.machine.after calls).inflight.erase jobId
        memoryUsedBytes := (a.machine.after calls).memoryUsedBytes - r.memoryBytes
        bandwidthFractionUsed :=
          (a.machine.after calls).bandwidthFractionUsed - r.bandwidthFraction })
  unknown : ∀ jobId, standing (a.machine.trace calls) jobId = none →
    (a.machine.after calls).release jobId = (false, a.machine.after calls)

variable {a : AdmissionController} {calls : List AdmissionCall}

/-- The jobs in flight are those that stand admitted, each with its recorded request. -/
private theorem inflight_eq (hstart : a.inflight = .empty) (calls : List AdmissionCall)
    (jobId : String) :
    (a.machine.after calls).inflight.get? jobId =
      (standing (a.machine.trace calls) jobId).map reservation := by
  induction calls using List.reverseRecOn with
  | nil => simp [standing, machine, hstart]
  | append_singleton calls c ih =>
    rw [CallMachine.after_concat, CallMachine.trace_concat, standing, List.foldl_append]
    change ((call (a.machine.after calls) c).2).inflight.get? jobId = Option.map reservation
      (List.foldl _ (standing (a.machine.trace calls) jobId) [(c, (call (a.machine.after calls) c).1)])
    cases c with
    | check r => simpa [call] using ih
    | admitJob r =>
      cases h : ((a.machine.after calls).checkRequest r).admitted with
      | false => simpa [call, admitRequest_of_refused h, h] using ih
      | true =>
        obtain ⟨hanswer, hafter⟩ := admitRequest_of_admitted h
        simp only [call, hafter, hanswer, List.foldl_cons, List.foldl_nil, Dict.get?_insert, and_true]
        by_cases hjob : r.jobId = jobId
        · rw [if_pos hjob.symm, if_pos hjob, Option.map_some]
        · rw [if_neg (Ne.symm hjob), if_neg hjob, ih]
    | release k =>
      simp only [call, List.foldl_cons, List.foldl_nil]
      cases hget : (a.machine.after calls).inflight.get? k with
      | none =>
        rw [release_of_none hget]
        by_cases hjob : k = jobId
        · subst hjob
          rw [if_pos rfl, hget, Option.map_none]
        · rw [if_neg hjob, ih]
      | some info =>
        rw [release_of_some _ hget, Dict.get?_erase]
        by_cases hjob : k = jobId
        · rw [if_pos hjob.symm, if_pos hjob, Option.map_none]
        · rw [if_neg (Ne.symm hjob), if_neg hjob, ih]

/-- The limits of the controller never change. -/
private theorem limits_after (calls : List AdmissionCall) :
    (a.machine.after calls).memoryAvailableBytes = a.memoryAvailableBytes ∧
      (a.machine.after calls).maxInflightJobs = a.maxInflightJobs ∧
      (a.machine.after calls).maxBandwidthFraction = a.maxBandwidthFraction := by
  induction calls using List.reverseRecOn with
  | nil => exact ⟨rfl, rfl, rfl⟩
  | append_singleton calls c ih =>
    rw [CallMachine.after_concat, machine_call]
    rcases call_cases (a.machine.after calls) c with h | ⟨r, -, -, h⟩ | ⟨k, info, -, -, h⟩ <;>
      rw [h] <;> exact ih

/-- What holds of the controller in every run without negative demands. -/
structure WithinLimits (a : AdmissionController) : Prop where
  demands : ∀ jobId info, a.inflight.get? jobId = some info →
    0 ≤ info.memoryBytes ∧ 0 ≤ info.bandwidthFraction
  memory_le : a.memoryUsedBytes ≤ a.memoryAvailableBytes
  bandwidth_le : a.bandwidthFractionUsed ≤ a.maxBandwidthFraction + 1 / 10 ^ 12
  count_le : a.inflightCount ≤ a.maxInflightJobs

theorem WithinLimits.call (h : WithinLimits a) {past : List AdmissionCall}
    {c : AdmissionCall} (hc : NonNegative past c) : WithinLimits (a.call c).2 := by
  rcases call_cases a c with heq | ⟨r, rfl, hadmitted, heq⟩ | ⟨jobId, info, rfl, hget, heq⟩
  · rwa [heq]
  · obtain ⟨hmemory, hcount, hbandwidth⟩ := limits_of_admitted hadmitted
    rw [heq]
    refine ⟨?_, hmemory, hbandwidth, ?_⟩
    · intro jobId info hget
      rw [Dict.get?_insert] at hget
      split_ifs at hget with hjob
      · cases hget
        exact hc r (Or.inr rfl)
      · exact h.demands jobId info hget
    · have hsize := Dict.size_erase_le a.inflight r.jobId
      simp only [inflightCount, Dict.size_insert] at hcount ⊢
      omega
  · obtain ⟨hmemory, hbandwidth⟩ := h.demands jobId info hget
    have hmemory_le := h.memory_le
    have hbandwidth_le := h.bandwidth_le
    rw [heq]
    refine ⟨?_, ?_, ?_, ?_⟩
    · intro k info hk
      rw [Dict.get?_erase] at hk
      split_ifs at hk
      exact h.demands k info hk
    · dsimp only
      linarith
    · dsimp only
      linarith
    · exact (Dict.size_erase_le a.inflight jobId).trans h.count_le

/-- The totals are the sums over the reservations. -/
structure Balanced (a : AdmissionController) : Prop where
  memory : a.memoryUsedBytes = a.inflight.sumValues Reservation.memoryBytes
  bandwidth : a.bandwidthFractionUsed = a.inflight.sumValues Reservation.bandwidthFraction

theorem Balanced.call (h : Balanced a) {c : AdmissionCall}
    (hc : ∀ r, c = .admitJob r → (a.checkRequest r).admitted = true → r.jobId ∉ a.inflight.keys) :
    Balanced (a.call c).2 := by
  obtain ⟨hmemory, hbandwidth⟩ := h
  rcases call_cases a c with heq | ⟨r, rfl, hadmitted, heq⟩ | ⟨jobId, info, rfl, hget, heq⟩
  · rw [heq]
    exact ⟨hmemory, hbandwidth⟩
  · have hnew := Dict.erase_of_get?_eq_none (Dict.not_mem_keys.mp (hc r rfl hadmitted))
    rw [heq]
    constructor
    · dsimp only
      rw [Dict.sumValues_insert, hnew, hmemory, add_comm]
      rfl
    · dsimp only
      rw [Dict.sumValues_insert, hnew, hbandwidth, add_comm]
      rfl
  · rw [heq]
    constructor
    · dsimp only
      rw [hmemory, Dict.sumValues_of_get? hget, add_sub_cancel_left]
    · dsimp only
      rw [hbandwidth, Dict.sumValues_of_get? hget, add_sub_cancel_left]

/-- A new controller has nothing in flight and is within its limits. -/
theorem new_ok {memoryAvailableBytes maxInflightJobs : ℤ} {maxBandwidthFraction : ℚ}
    (h : new memoryAvailableBytes maxInflightJobs maxBandwidthFraction = .ok a) :
    a.inflight = .empty ∧ WithinLimits a ∧ Balanced a := by
  unfold new at h
  split_ifs at h with hmemory hcount hbandwidth
  cases h
  have hempty : ∀ jobId info, (Dict.empty : Dict String Reservation).get? jobId = some info →
      0 ≤ info.memoryBytes ∧ 0 ≤ info.bandwidthFraction := by
    simp
  refine ⟨rfl, ⟨hempty, not_lt.mp hmemory, ?_, Nat.zero_le _⟩, ⟨rfl, rfl⟩⟩
  have hpositive := hbandwidth.1
  have htolerance : (0 : ℚ) ≤ 1 / 10 ^ 12 := by positivity
  dsimp only
  linarith

private theorem keepsRefused (a : AdmissionController) (past : List AdmissionCall)
    (c : AdmissionCall) : KeepsRefused a past c := by
  rintro r result (rfl | ⟨rfl, hresult⟩) hanswer
  · exact CallMachine.after_concat _ _ _
  · rw [CallMachine.after_concat]
    have hfst : ((a.machine.after past).admitRequest r).1 = result :=
      AdmissionAnswer.result.inj hanswer
    have hrefused : ((a.machine.after past).checkRequest r).admitted = false := by
      rw [← admitRequest_fst, hfst, hresult]
    exact congrArg Prod.snd (admitRequest_of_refused hrefused)

private theorem releaseUndoes_iff {past : List AdmissionCall} {c : AdmissionCall} :
    ReleaseUndoes a past c ↔ AdmitsNew a past c := by
  unfold ReleaseUndoes AdmitsNew
  constructor
  · rintro h r rfl hadmitted
    have hundone := h r _ rfl rfl (admitRequest_of_admitted hadmitted).1
    rw [CallMachine.after_concat] at hundone
    exact (release_admitRequest_iff hadmitted).mp hundone
  · rintro h r result rfl hanswer hresult
    have hfst : ((a.machine.after past).admitRequest r).1 = result :=
      AdmissionAnswer.result.inj hanswer
    have hadmitted : ((a.machine.after past).checkRequest r).admitted = true := by
      rw [← admitRequest_fst, hfst, hresult]
    rw [CallMachine.after_concat]
    exact (release_admitRequest_iff hadmitted).mpr (h r rfl hadmitted)

private theorem books_of_balanced {calls : List AdmissionCall} (hempty : a.inflight = .empty)
    (hlimits : WithinLimits (a.machine.after calls)) (hbalanced : Balanced (a.machine.after calls)) :
    Books a calls := by
  obtain ⟨hmemory, hcount, hbandwidth⟩ := limits_after (a := a) calls
  refine ⟨hbalanced.memory, hbalanced.bandwidth, hmemory ▸ hlimits.memory_le,
    hbandwidth ▸ hlimits.bandwidth_le, hcount ▸ hlimits.count_le, ?_, ?_⟩
  · intro jobId r hr
    have hget := inflight_eq hempty calls jobId
    rw [hr, Option.map_some] at hget
    exact release_of_some _ hget
  · intro jobId hnone
    have hget := inflight_eq hempty calls jobId
    rw [hnone, Option.map_none] at hget
    exact release_of_none hget

/-- A controller with 100 bytes and four jobs in flight. -/
def sampleController : AdmissionController :=
  { memoryAvailableBytes := 100, maxInflightJobs := 4, maxBandwidthFraction := 1 }

private theorem new_sample : new 100 4 1 = .ok sampleController := by
  simp [new, sampleController]

/-- A job is admitted, another one does not fit, and the first is released. -/
def sampleAdmissions : List AdmissionCall :=
  [.admitJob { jobId := "j", memoryBytes := 60 }, .admitJob { jobId := "k", memoryBytes := 60 },
    .release "j"]

end AdmissionController

end NpuArc
