import NpuArc.Pcie.Transfers

/-!
# Injected errors

An error that is injected for the tag of a descriptor should be reported by the next descriptor
with the tag, and by nothing else. The errors that are still to be reported are counted from the
calls alone, as the bits of error codes. The engine keeps this law in every run whose calls are
clean: no error is injected over another one, write descriptors have tags without errors, and the
packets of a read do not take a tag for which a completion error is injected.
-/

namespace NpuArc

namespace Pcie

/-- The calls of a client of the engine. -/
inductive DmaCall
  | injectCompletionError (tag status : ℤ)
  | injectAxiDecError (tag : ℤ)
  | submitWriteDesc (pcieAddr axiAddr length tag : ℤ)
  | submitReadDesc (pcieAddr axiAddr length tag : ℤ)
  | tlpRead (pcieAddr length : ℤ)

/-- The engine after a call, also after one that raises. -/
def DmaEngine.call (r : Regmap) (order : PopOrder) (d : DmaEngine) : DmaCall → DmaEngine
  | .injectCompletionError tag status => d.injectCompletionError tag status
  | .injectAxiDecError tag => d.injectAxiDecError tag
  | .submitWriteDesc pcieAddr axiAddr length tag =>
    (d.submitWriteDesc r order pcieAddr axiAddr length tag).1
  | .submitReadDesc pcieAddr axiAddr length tag =>
    (d.submitReadDesc r order pcieAddr axiAddr length tag).1
  | .tlpRead pcieAddr length => (d.tlpRead order pcieAddr length).1

/-- A tag that a descriptor can have. -/
def InRange (tag : ℤ) : Prop := 0 ≤ tag ∧ tag < pcieTagCount

instance (tag : ℤ) : Decidable (InRange tag) := inferInstanceAs (Decidable (_ ∧ _))

/-- The tag of a descriptor that a call submits. -/
def DmaCall.submitted : DmaCall → Option ℤ
  | .submitWriteDesc _ _ _ tag | .submitReadDesc _ _ _ tag =>
    if InRange tag then some tag else none
  | _ => none

/-- The errors that are still to be reported under a tag, as bits. -/
abbrev Pending := ℤ → ℕ

/-- The error code of a completion status. -/
def errorCode (status : ℤ) : ℕ :=
  if status = cplStatusUr then descErrUr
  else if status = cplStatusCa then descErrCa
  else descErrNone

/-- The errors to be reported after a call. -/
def Pending.after (pending : Pending) : DmaCall → Pending
  | .injectCompletionError tag status =>
    Function.update pending tag (pending tag ||| errorCode status)
  | .injectAxiDecError tag => Function.update pending tag (pending tag ||| descErrDecerr)
  | .submitWriteDesc _ _ _ tag | .submitReadDesc _ _ _ tag =>
    if InRange tag then Function.update pending tag 0 else pending
  | .tlpRead _ _ => pending

/-- The engine without the errors that are injected. -/
def DmaEngine.withoutErrors (d : DmaEngine) : DmaEngine :=
  { d with completionErrors := .empty, axiDecErrors := ∅ }

/-- The law of a call: all tags are free after it. A descriptor gets one status, with the errors
that are to be reported under its tag, and without any the status that it would get if no errors
were injected. No other call gives a status. -/
structure CallLaw (r : Regmap) (order : PopOrder) (d : DmaEngine) (pending : Pending)
    (c : DmaCall) : Prop where
  idle : (d.call r order c).Idle
  submitted : ∀ tag, c.submitted = some tag → ∃ code,
    (d.call r order c).descStatus = d.descStatus ++ [(tag, code)] ∧
      (pending tag ≠ 0 → code = pending tag) ∧
      (pending tag = 0 →
        (d.withoutErrors.call r order c).descStatus = d.descStatus ++ [(tag, code)])
  others : c.submitted = none → (d.call r order c).descStatus = d.descStatus

/-- Every call of a run keeps the law. -/
def Lawful (r : Regmap) (order : PopOrder) : DmaEngine → Pending → List DmaCall → Prop
  | _, _, [] => True
  | d, pending, c :: calls =>
    CallLaw r order d pending c ∧ Lawful r order (d.call r order c) (pending.after c) calls

/-- No completion error is to be reported under a tag that the packets of a read take. -/
def CleanTags (order : PopOrder) (d : DmaEngine) (pending : Pending) (length : ℤ) : Prop :=
  ∀ k < d.packets length.toNat, pending (d.tagAfter order k).val = 0 ∨
    pending (d.tagAfter order k).val = descErrDecerr

/-- An error is injected only where no other one is to be reported, and as one of the two errors
of completions; a write descriptor has a tag without errors; and a read takes no tag of a packet
for which a completion error is injected, and as a descriptor no negative length. -/
def Clean (order : PopOrder) (d : DmaEngine) (pending : Pending) : DmaCall → Prop
  | .injectCompletionError tag status =>
    status = cplStatusSc ∧ (pending tag = 0 ∨ pending tag = descErrDecerr) ∨
      (status = cplStatusUr ∨ status = cplStatusCa) ∧
        (pending tag = 0 ∨ pending tag = errorCode status)
  | .injectAxiDecError tag => pending tag = 0 ∨ pending tag = descErrDecerr
  | .submitWriteDesc _ _ _ tag => InRange tag → pending tag = 0
  | .submitReadDesc _ _ length tag => InRange tag →
    pending tag = descErrUr ∨ pending tag = descErrCa ∨
      0 ≤ length ∧ CleanTags order d pending length
  | .tlpRead _ length => CleanTags order d pending length

/-- Every call of a run is clean. -/
def CleanRun (r : Regmap) (order : PopOrder) : DmaEngine → Pending → List DmaCall → Prop
  | _, _, [] => True
  | d, pending, c :: calls =>
    Clean order d pending c ∧ CleanRun r order (d.call r order c) (pending.after c) calls

section Descriptors

variable {r : Regmap} {order : PopOrder} {d : DmaEngine} {pcieAddr axiAddr length tag : ℤ}

/-- The status of a write descriptor. -/
def DmaEngine.writeCode (r : Regmap) (d : DmaEngine) (axiAddr length : ℤ) : ℕ :=
  match d.crossbar with
  | none => descErrNone
  | some x => if (r.read x masterPcie axiAddr length).isOk then descErrNone else descErrDecerr

/-- The status of a read descriptor without an injected error. -/
def DmaEngine.readCode (r : Regmap) (d : DmaEngine) (axiAddr : ℤ) : ℕ :=
  match d.crossbar with
  | none => descErrNone
  | some x => if (r.decode x axiAddr).isOk then descErrNone else descErrDecerr

theorem not_outOfRange (hin : InRange tag) : ¬ (tag < 0 ∨ pcieTagCount ≤ tag) := by
  rw [InRange] at hin
  omega

theorem outOfRange (hin : ¬ InRange tag) : tag < 0 ∨ pcieTagCount ≤ tag := by
  rw [InRange] at hin
  omega

/-- A write descriptor gets its status, and the injected errors stay as they are. -/
theorem submitWriteDesc_eq (r : Regmap) (order : PopOrder) (pcieAddr axiAddr length : ℤ)
    (hfree : d.tagFree.Nonempty) (hin : InRange tag) :
    ∃ x mem pops, (d.submitWriteDesc r order pcieAddr axiAddr length tag).1 =
      { d with
        crossbar := x
        hostMem := mem
        pops := pops
        descStatus := d.descStatus ++ [(tag, d.writeCode r axiAddr length)]
        irqPending := true } := by
  rw [DmaEngine.submitWriteDesc, if_neg (not_outOfRange hin), DmaEngine.writeCode]
  cases hx : d.crossbar with
  | none =>
    obtain ⟨hs, hrun, -⟩ := DmaEngine.tlpWrite_eq_ok order pcieAddr
      (DmaEngine.fallbackData d.hostMem axiAddr length) hfree
    dsimp only
    rw [hrun]
    exact ⟨_, _, _, rfl⟩
  | some x =>
    dsimp only
    cases hread : r.read x masterPcie axiAddr length with
    | error e => exact ⟨some x, _, _, by rw [← hx]; rfl⟩
    | ok out =>
      obtain ⟨x', data⟩ := out
      have hfree' : ({ d with crossbar := some x' } : DmaEngine).tagFree.Nonempty := hfree
      obtain ⟨hs, hrun, -⟩ := DmaEngine.tlpWrite_eq_ok order pcieAddr data hfree'
      dsimp only
      rw [hrun]
      exact ⟨_, _, _, rfl⟩

/-- The data of a read descriptor is stored, with the status of the descriptor. -/
theorem storeData_eq (r : Regmap) (d : DmaEngine) (axiAddr : ℤ) (data : List UInt8) :
    ∃ x mem, d.storeData r axiAddr data =
      ({ d with crossbar := x, hostMem := mem }, d.readCode r axiAddr) := by
  rw [DmaEngine.storeData, DmaEngine.readCode]
  cases hx : d.crossbar with
  | none =>
    dsimp only
    exact ⟨none, _, by rw [← hx]⟩
  | some x =>
    dsimp only
    cases hs : r.decode x axiAddr with
    | error e =>
      rw [write_eq_error hs]
      exact ⟨some x, d.hostMem, by rw [← hx]; rfl⟩
    | ok s =>
      obtain ⟨x', hwrite, -⟩ := write_eq_ok data hs
      rw [hwrite]
      exact ⟨some x', d.hostMem, rfl⟩

/-- A read descriptor under whose tag a completion error is injected reports it. -/
theorem submitReadDesc_injected (r : Regmap) (order : PopOrder) (pcieAddr axiAddr length : ℤ)
    (hin : InRange tag)
    (h : d.statusOf tag = cplStatusUr ∨ d.statusOf tag = cplStatusCa) :
    (d.submitReadDesc r order pcieAddr axiAddr length tag).1 =
      (d.popStatus tag).complete tag (errorCode (d.statusOf tag)) := by
  rw [DmaEngine.submitReadDesc, if_neg (not_outOfRange hin), errorCode]
  dsimp only
  rcases h with h | h
  · rw [if_pos h, if_pos h]
  · rw [h, if_neg (by decide), if_pos rfl, if_neg (by decide), if_pos rfl]

/-- A read descriptor without an injected completion error gets the error of the crossbar that is
injected under its tag, or else its status. -/
theorem submitReadDesc_quiet (r : Regmap) (pcieAddr axiAddr : ℤ) {n : ℕ} (hfree : d.tagFree.Nonempty) (hin : InRange tag)
    (hur : d.statusOf tag ≠ cplStatusUr) (hca : d.statusOf tag ≠ cplStatusCa)
    (hquiet : (d.popStatus tag).Quiet order n) :
    ∃ x mem pops errors, (d.submitReadDesc r order pcieAddr axiAddr n tag).1 =
      { d with
        crossbar := x
        hostMem := mem
        pops := pops
        completionErrors := errors
        axiDecErrors := d.axiDecErrors.erase tag
        descStatus := d.descStatus ++ [(tag,
          if tag ∈ d.axiDecErrors then descErrDecerr else d.readCode r axiAddr)]
        irqPending := true } ∧
      ∀ t, (errors.get? t).getD cplStatusSc = (d.popStatus tag).statusOf t := by
  have hfree' : (d.popStatus tag).tagFree.Nonempty := hfree
  obtain ⟨errors, data, hs, hrun, herrors, -, -⟩ :=
    DmaEngine.tlpRead_eq_ok pcieAddr hfree' hquiet
  rw [DmaEngine.submitReadDesc, if_neg (not_outOfRange hin)]
  dsimp only
  rw [if_neg hur, if_neg hca, hrun]
  dsimp only
  by_cases haxi : tag ∈ d.axiDecErrors
  · have haxi' : tag ∈ (d.popStatus tag).axiDecErrors := haxi
    rw [if_pos haxi', if_pos haxi]
    exact ⟨_, _, _, errors, rfl, herrors⟩
  · have haxi' : tag ∉ (d.popStatus tag).axiDecErrors := haxi
    obtain ⟨x, mem, hstore⟩ := storeData_eq r
      { d.popStatus tag with
        pops := (d.popStatus tag).pops + (d.popStatus tag).packets n
        completionErrors := errors } axiAddr data
    rw [if_neg haxi', if_neg haxi, hstore, Finset.erase_eq_of_notMem haxi]
    exact ⟨x, mem, _, errors, rfl, herrors⟩

/-- A read descriptor leaves the pool as it was, also when it raises. -/
theorem tagFree_submitReadDesc (hfree : d.tagFree.Nonempty) (hin : InRange tag) :
    (d.submitReadDesc r order pcieAddr axiAddr length tag).1.tagFree = d.tagFree := by
  have hfree' : (d.popStatus tag).tagFree.Nonempty := hfree
  have hread : ((d.popStatus tag).tlpRead order pcieAddr length).1.tagFree = d.tagFree :=
    DmaEngine.tagFree_tlpRead pcieAddr length hfree'
  rw [DmaEngine.submitReadDesc, if_neg (not_outOfRange hin)]
  dsimp only
  split_ifs
  · rfl
  · rfl
  rcases hrun : (d.popStatus tag).tlpRead order pcieAddr length with ⟨d', res⟩
  rw [hrun] at hread
  cases res with
  | error e => cases e <;> exact hread
  | ok out =>
    obtain ⟨data, hs⟩ := out
    dsimp only
    split_ifs
    · exact hread
    · obtain ⟨x, mem, hstore⟩ := storeData_eq r d' axiAddr data
      rw [hstore]
      exact hread

/-- All tags are free again after a call, also after one that raises. -/
theorem idle_call (hidle : d.Idle) (c : DmaCall) : (d.call r order c).Idle := by
  cases c with
  | injectCompletionError tag status => exact hidle
  | injectAxiDecError tag => exact hidle
  | submitWriteDesc pcieAddr axiAddr length tag =>
    rw [DmaEngine.call]
    by_cases hin : InRange tag
    · obtain ⟨x, mem, pops, h⟩ :=
        submitWriteDesc_eq r order pcieAddr axiAddr length hidle.nonempty hin
      rw [h]
      exact hidle
    · rw [DmaEngine.submitWriteDesc, if_pos (outOfRange hin)]
      exact hidle
  | submitReadDesc pcieAddr axiAddr length tag =>
    rw [DmaEngine.call]
    by_cases hin : InRange tag
    · exact (tagFree_submitReadDesc hidle.nonempty hin).trans hidle
    · rw [DmaEngine.submitReadDesc, if_pos (outOfRange hin)]
      exact hidle
  | tlpRead pcieAddr length =>
    exact (DmaEngine.tagFree_tlpRead pcieAddr length hidle.nonempty).trans hidle

/-- All tags are free again after each call of a run. -/
theorem idle_calls (hidle : d.Idle) (calls : List DmaCall) :
    (calls.foldl (DmaEngine.call r order) d).Idle := by
  induction calls generalizing d with
  | nil => exact hidle
  | cons c calls ih => exact ih (idle_call hidle c)

end Descriptors

section Invariant

variable {r : Regmap} {order : PopOrder} {d : DmaEngine} {pending : Pending} {c : DmaCall}
  {calls : List DmaCall}

/-- The completion status of an error code. -/
def completionOf (code : ℕ) : ℤ :=
  if code = descErrUr then cplStatusUr
  else if code = descErrCa then cplStatusCa
  else cplStatusSc

/-- The engine holds the errors that are to be reported, one at most under each tag. -/
structure Holding (d : DmaEngine) (pending : Pending) : Prop where
  idle : d.Idle
  known : ∀ t, pending t = 0 ∨ pending t = descErrUr ∨ pending t = descErrCa ∨
    pending t = descErrDecerr
  completion : ∀ t, d.statusOf t = completionOf (pending t)
  axi : ∀ t, t ∈ d.axiDecErrors ↔ pending t = descErrDecerr

/-- Where nothing but an error of the crossbar is to be reported, no completion error is
injected. -/
theorem completionOf_eq_sc {code : ℕ} (h : code = 0 ∨ code = descErrDecerr) :
    completionOf code = cplStatusSc := by
  rcases h with rfl | rfl <;> rfl

theorem Holding.quiet (h : Holding d pending) {length : ℤ}
    (hclean : CleanTags order d pending length) : d.Quiet order length.toNat := by
  intro k hk
  rw [h.completion, completionOf_eq_sc (hclean k hk)]

/-- The engine holds other errors under one tag. -/
theorem Holding.update (h : Holding d pending) {d' : DmaEngine} {tag : ℤ} {code : ℕ}
    (hidle : d'.Idle)
    (hknown : code = 0 ∨ code = descErrUr ∨ code = descErrCa ∨ code = descErrDecerr)
    (hstatus : ∀ t, d'.statusOf t = if t = tag then completionOf code else d.statusOf t)
    (haxi : ∀ t, t ∈ d'.axiDecErrors ↔
      if t = tag then code = descErrDecerr else t ∈ d.axiDecErrors) :
    Holding d' (Function.update pending tag code) := by
  refine ⟨hidle, fun t => ?_, fun t => ?_, fun t => ?_⟩
  · rw [Function.update_apply]
    split_ifs
    · exact hknown
    · exact h.known t
  · rw [hstatus, Function.update_apply]
    split_ifs
    · rfl
    · exact h.completion t
  · rw [haxi, Function.update_apply]
    split_ifs
    · exact Iff.rfl
    · exact h.axi t

/-- An injected completion error is held. -/
theorem Holding.injectCompletionError (h : Holding d pending) {tag status : ℤ}
    (hclean : Clean order d pending (.injectCompletionError tag status)) :
    Holding (d.injectCompletionError tag status)
      (pending.after (.injectCompletionError tag status)) := by
  obtain ⟨hknown, hcompletion, haxi⟩ :
      (pending tag ||| errorCode status = 0 ∨ pending tag ||| errorCode status = descErrUr ∨
        pending tag ||| errorCode status = descErrCa ∨
        pending tag ||| errorCode status = descErrDecerr) ∧
      completionOf (pending tag ||| errorCode status) = status ∧
      (pending tag ||| errorCode status = descErrDecerr ↔ pending tag = descErrDecerr) := by
    rcases hclean with ⟨rfl, hp | hp⟩ | ⟨rfl | rfl, hp | hp⟩ <;> rw [hp] <;> decide
  refine h.update h.idle hknown (fun t => ?_) fun t => ?_
  · rw [DmaEngine.statusOf, DmaEngine.injectCompletionError, Dict.get?_insert, hcompletion]
    split_ifs
    · rfl
    · rfl
  · split_ifs with ht
    · rw [haxi, ht]
      exact h.axi tag
    · exact Iff.rfl

/-- An injected error of the crossbar is held. -/
theorem Holding.injectAxiDecError (h : Holding d pending) {tag : ℤ}
    (hclean : Clean order d pending (.injectAxiDecError tag)) :
    Holding (d.injectAxiDecError tag) (pending.after (.injectAxiDecError tag)) := by
  have hcode : pending tag ||| descErrDecerr = descErrDecerr := by
    rcases hclean with hp | hp <;> rw [hp] <;> decide
  refine h.update h.idle (Or.inr (Or.inr (Or.inr hcode))) (fun t => ?_) fun t => ?_
  · split_ifs with ht
    · rw [hcode, ht, completionOf_eq_sc (Or.inr rfl), ← completionOf_eq_sc hclean]
      exact h.completion tag
    · rfl
  · rw [DmaEngine.injectAxiDecError, Finset.mem_insert]
    split_ifs with ht
    · exact iff_of_true (Or.inl ht) hcode
    · exact or_iff_right ht

theorem statusOf_popStatus (d : DmaEngine) (tag t : ℤ) :
    (d.popStatus tag).statusOf t = if t = tag then cplStatusSc else d.statusOf t := by
  rw [DmaEngine.statusOf, DmaEngine.popStatus, Dict.get?_erase]
  split_ifs
  · rfl
  · rfl

/-- Where a descriptor has reported the errors under its tag, the others are still held. -/
theorem Holding.cleared (h : Holding d pending) {d' : DmaEngine} {tag : ℤ} (hidle : d'.Idle)
    (hstatus : ∀ t, d'.statusOf t = (d.popStatus tag).statusOf t)
    (haxi : d'.axiDecErrors = d.axiDecErrors.erase tag) :
    Holding d' (Function.update pending tag 0) := by
  refine h.update hidle (Or.inl rfl) (fun t => ?_) fun t => ?_
  · rw [hstatus, statusOf_popStatus]
    rfl
  · rw [haxi, Finset.mem_erase]
    split_ifs with ht
    · exact iff_of_false (fun hin => hin.1 ht) (by decide)
    · exact and_iff_right ht

/-- The law of a call that submits a descriptor. -/
theorem CallLaw.of_submitted {tag : ℤ} (code : ℕ) (hsubmitted : c.submitted = some tag)
    (hidle : (d.call r order c).Idle)
    (hstatus : (d.call r order c).descStatus = d.descStatus ++ [(tag, code)])
    (hpending : pending tag ≠ 0 → code = pending tag)
    (hnatural : pending tag = 0 →
      (d.withoutErrors.call r order c).descStatus = d.descStatus ++ [(tag, code)]) :
    CallLaw r order d pending c := by
  refine ⟨hidle, fun t ht => ?_, fun hnone => ?_⟩
  · obtain rfl := Option.some.inj (hsubmitted.symm.trans ht)
    exact ⟨code, hstatus, hpending, hnatural⟩
  · cases hsubmitted.symm.trans hnone

/-- The law of a call that submits no descriptor. -/
theorem CallLaw.of_others (hsubmitted : c.submitted = none) (hidle : (d.call r order c).Idle)
    (hstatus : (d.call r order c).descStatus = d.descStatus) : CallLaw r order d pending c := by
  refine ⟨hidle, fun t ht => ?_, fun _ => hstatus⟩
  cases hsubmitted.symm.trans ht

/-- A write descriptor under whose tag nothing is to be reported keeps the law. -/
theorem Holding.submitWriteDesc (h : Holding d pending) {pcieAddr axiAddr length tag : ℤ}
    (hin : InRange tag) (hzero : pending tag = 0) :
    CallLaw r order d pending (.submitWriteDesc pcieAddr axiAddr length tag) ∧
      Holding (d.call r order (.submitWriteDesc pcieAddr axiAddr length tag))
        (Function.update pending tag 0) := by
  have hfree : d.withoutErrors.tagFree.Nonempty := h.idle.nonempty
  obtain ⟨x, mem, pops, hcall⟩ :=
    submitWriteDesc_eq r order pcieAddr axiAddr length h.idle.nonempty hin
  obtain ⟨x', mem', pops', hcall'⟩ :=
    submitWriteDesc_eq r order pcieAddr axiAddr length hfree hin
  refine ⟨CallLaw.of_submitted (d.writeCode r axiAddr length) (if_pos hin) ?_ ?_
    (fun hne => absurd hzero hne) fun _ => ?_, ?_⟩
  · rw [DmaEngine.call, hcall]
    exact h.idle
  · rw [DmaEngine.call, hcall]
  · rw [DmaEngine.call, hcall']
    rfl
  · rw [DmaEngine.call, hcall, Function.update_eq_self_iff.mpr hzero.symm]
    exact ⟨h.idle, h.known, h.completion, h.axi⟩

/-- A read descriptor under whose tag a completion error is to be reported keeps the law. -/
theorem Holding.submitReadDesc_injected (h : Holding d pending)
    {pcieAddr axiAddr length tag : ℤ} (hin : InRange tag)
    (hpending : pending tag = descErrUr ∨ pending tag = descErrCa) :
    CallLaw r order d pending (.submitReadDesc pcieAddr axiAddr length tag) ∧
      Holding (d.call r order (.submitReadDesc pcieAddr axiAddr length tag))
        (Function.update pending tag 0) := by
  have hcompletion := h.completion tag
  obtain ⟨hinjected, hcode, hne, haxi⟩ :
      (completionOf (pending tag) = cplStatusUr ∨ completionOf (pending tag) = cplStatusCa) ∧
      errorCode (completionOf (pending tag)) = pending tag ∧ pending tag ≠ 0 ∧
      pending tag ≠ descErrDecerr := by
    rcases hpending with hp | hp <;> rw [hp] <;> decide
  rw [← hcompletion] at hinjected hcode
  have hcall := Pcie.submitReadDesc_injected r order pcieAddr axiAddr length hin hinjected
  refine ⟨CallLaw.of_submitted (pending tag) (if_pos hin) ?_ ?_ (fun _ => rfl)
    fun hzero => absurd hzero hne, ?_⟩
  · rw [DmaEngine.call, hcall]
    exact h.idle
  · rw [DmaEngine.call, hcall, hcode]
    rfl
  · rw [DmaEngine.call, hcall]
    refine h.cleared h.idle (fun t => rfl) ?_
    exact (Finset.erase_eq_of_notMem fun hmem => haxi ((h.axi tag).mp hmem)).symm

/-- A read descriptor whose packets take no tag of an injected completion error keeps the law. -/
theorem Holding.submitReadDesc_quiet (h : Holding d pending) {pcieAddr axiAddr tag : ℤ} {n : ℕ}
    (hin : InRange tag) (hpending : pending tag = 0 ∨ pending tag = descErrDecerr)
    (hclean : CleanTags order d pending n) :
    CallLaw r order d pending (.submitReadDesc pcieAddr axiAddr n tag) ∧
      Holding (d.call r order (.submitReadDesc pcieAddr axiAddr n tag))
        (Function.update pending tag 0) := by
  have hstatus : d.statusOf tag = cplStatusSc := by
    rw [h.completion, completionOf_eq_sc hpending]
  have hquiet : (d.popStatus tag).Quiet order n := by
    intro k hk
    rw [statusOf_popStatus]
    split_ifs
    · rfl
    · exact h.quiet hclean k hk
  obtain ⟨x, mem, pops, errors, hcall, herrors⟩ := Pcie.submitReadDesc_quiet r pcieAddr axiAddr
    h.idle.nonempty hin (by rw [hstatus]; decide) (by rw [hstatus]; decide) hquiet
  have hfree : d.withoutErrors.tagFree.Nonempty := h.idle.nonempty
  have hnone : d.withoutErrors.statusOf tag = cplStatusSc := rfl
  have hquiet' : (d.withoutErrors.popStatus tag).Quiet order n := by
    intro k hk
    rw [statusOf_popStatus]
    split_ifs
    · rfl
    · rfl
  obtain ⟨x', mem', pops', errors', hcall', -⟩ := Pcie.submitReadDesc_quiet r pcieAddr axiAddr
    hfree hin (by rw [hnone]; decide) (by rw [hnone]; decide) hquiet'
  refine ⟨CallLaw.of_submitted _ (if_pos hin) ?_ (by rw [DmaEngine.call, hcall]) (fun hne => ?_)
    fun hzero => ?_, ?_⟩
  · rw [DmaEngine.call, hcall]
    exact h.idle
  · have hp : pending tag = descErrDecerr := hpending.resolve_left hne
    rw [if_pos ((h.axi tag).mpr hp), hp]
  · have hnot : tag ∉ d.axiDecErrors := by
      rw [h.axi, hzero]
      decide
    rw [DmaEngine.call, hcall', if_neg hnot]
    rfl
  · rw [DmaEngine.call, hcall]
    exact h.cleared h.idle herrors rfl

/-- A clean call keeps the law, and the engine holds what is still to be reported. -/
theorem Holding.call (h : Holding d pending) (hclean : Clean order d pending c) :
    CallLaw r order d pending c ∧ Holding (d.call r order c) (pending.after c) := by
  cases c with
  | injectCompletionError tag status =>
    exact ⟨.of_others rfl h.idle rfl, h.injectCompletionError hclean⟩
  | injectAxiDecError tag => exact ⟨.of_others rfl h.idle rfl, h.injectAxiDecError hclean⟩
  | submitWriteDesc pcieAddr axiAddr length tag =>
    by_cases hin : InRange tag
    · rw [Pending.after, if_pos hin]
      exact h.submitWriteDesc hin (hclean hin)
    · have hcall : d.call r order (.submitWriteDesc pcieAddr axiAddr length tag) = d := by
        rw [DmaEngine.call, DmaEngine.submitWriteDesc, if_pos (outOfRange hin)]
      rw [Pending.after, if_neg hin, hcall]
      exact ⟨.of_others (if_neg hin) (by rw [hcall]; exact h.idle) (by rw [hcall]), h⟩
  | submitReadDesc pcieAddr axiAddr length tag =>
    by_cases hin : InRange tag
    · rw [Pending.after, if_pos hin]
      by_cases hinjected : pending tag = descErrUr ∨ pending tag = descErrCa
      · exact h.submitReadDesc_injected hin hinjected
      · obtain ⟨hlen, htags⟩ : 0 ≤ length ∧ CleanTags order d pending length := by
          rcases hclean hin with hp | hp | hread
          · exact absurd (Or.inl hp) hinjected
          · exact absurd (Or.inr hp) hinjected
          · exact hread
        obtain ⟨n, rfl⟩ := Int.eq_ofNat_of_zero_le hlen
        refine h.submitReadDesc_quiet hin ?_ htags
        rcases h.known tag with hp | hp | hp | hp
        · exact Or.inl hp
        · exact absurd (Or.inl hp) hinjected
        · exact absurd (Or.inr hp) hinjected
        · exact Or.inr hp
    · have hcall : d.call r order (.submitReadDesc pcieAddr axiAddr length tag) = d := by
        rw [DmaEngine.call, DmaEngine.submitReadDesc, if_pos (outOfRange hin)]
      rw [Pending.after, if_neg hin, hcall]
      exact ⟨.of_others (if_neg hin) (by rw [hcall]; exact h.idle) (by rw [hcall]), h⟩
  | tlpRead pcieAddr length =>
    rcases lt_or_ge length 0 with hneg | hpos
    · have hcall : d.call r order (.tlpRead pcieAddr length) = d := by
        rw [DmaEngine.call, DmaEngine.tlpRead, if_pos hneg]
      rw [Pending.after, hcall]
      exact ⟨.of_others rfl (by rw [hcall]; exact h.idle) (by rw [hcall]), h⟩
    · obtain ⟨n, rfl⟩ := Int.eq_ofNat_of_zero_le hpos
      obtain ⟨errors, data, hs, hrun, herrors, -, -⟩ :=
        DmaEngine.tlpRead_eq_ok pcieAddr h.idle.nonempty (h.quiet hclean)
      have hcall : d.call r order (.tlpRead pcieAddr n) = { d with
          pops := d.pops + d.packets n, completionErrors := errors } := by
        rw [DmaEngine.call]
        exact congrArg Prod.fst hrun
      rw [Pending.after, hcall]
      refine ⟨.of_others rfl (by rw [hcall]; exact h.idle) (by rw [hcall]), h.idle, h.known,
        fun t => ?_, h.axi⟩
      exact (herrors t).trans (h.completion t)

/-- A run of clean calls keeps the law. -/
theorem lawful_of_cleanRun (h : Holding d pending) (hclean : CleanRun r order d pending calls) :
    Lawful r order d pending calls := by
  induction calls generalizing d pending with
  | nil => trivial
  | cons c calls ih =>
    obtain ⟨hlaw, hnext⟩ := h.call hclean.1
    exact ⟨hlaw, ih hnext hclean.2⟩

/-- From an engine without injected errors, all tags are free again after every run of calls, and
a run of clean calls keeps the law. -/
theorem injections_reported (r : Regmap) (order : PopOrder) (crossbar : Option CrossbarModel)
    (hostMem : List UInt8) (requesterId : UInt16) (maxPayloadSize : ℤ) (calls : List DmaCall) :
    (calls.foldl (DmaEngine.call r order)
      (.new crossbar hostMem requesterId maxPayloadSize)).Idle ∧
    (CleanRun r order (.new crossbar hostMem requesterId maxPayloadSize) (fun _ => 0) calls →
      Lawful r order (.new crossbar hostMem requesterId maxPayloadSize) (fun _ => 0) calls) := by
  have hidle : (DmaEngine.new crossbar hostMem requesterId maxPayloadSize).Idle := rfl
  refine ⟨idle_calls hidle calls, lawful_of_cleanRun ?_⟩
  refine ⟨hidle, fun _ => Or.inl rfl, fun _ => rfl, fun t => ?_⟩
  exact iff_of_false (Finset.notMem_empty t) (by decide)

/-- An error of the crossbar is injected for a tag, and reported by a read descriptor. -/
def sampleCalls : List DmaCall := [.injectAxiDecError 5, .submitReadDesc 0 0 4 5]

/-- The law in a sample run. -/
theorem sample_injections_reported :
    CleanRun sampleRegmap leastTag (.new none [1, 2, 3, 4] 0 1) (fun _ => 0) sampleCalls ∧
      Lawful sampleRegmap leastTag (.new none [1, 2, 3, 4] 0 1) (fun _ => 0) sampleCalls := by
  have hclean : CleanRun sampleRegmap leastTag (.new none [1, 2, 3, 4] 0 1) (fun _ => 0)
      sampleCalls := by
    refine ⟨Or.inl rfl, fun _ => Or.inr (Or.inr ⟨by decide, fun k _ => ?_⟩), trivial⟩
    rw [Pending.after, Function.update_apply]
    split_ifs
    · exact Or.inr rfl
    · exact Or.inl rfl
  exact ⟨hclean, (injections_reported _ _ _ _ _ _ _).2 hclean⟩

/-- A write descriptor does not report the completion error that is injected for its tag. -/
theorem injections_not_reported : ¬ ∀ (r : Regmap) (order : PopOrder)
    (crossbar : Option CrossbarModel) (hostMem : List UInt8) (requesterId : UInt16)
    (maxPayloadSize : ℤ) (calls : List DmaCall),
    Lawful r order (.new crossbar hostMem requesterId maxPayloadSize) (fun _ => 0) calls := by
  intro h
  obtain ⟨-, hlaw, -⟩ := h sampleRegmap leastTag none [1, 2, 3, 4] 0 1
    [.injectCompletionError 5 cplStatusUr, .submitWriteDesc 0 0 0 5]
  obtain ⟨code, hstatus, hpending, -⟩ := hlaw.submitted 5 rfl
  have hcode : code = descErrUr := hpending (by decide)
  rw [hcode] at hstatus
  exact absurd hstatus (by decide +kernel)

end Invariant

end Pcie

end NpuArc
