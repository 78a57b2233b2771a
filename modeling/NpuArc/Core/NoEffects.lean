import NpuArc.Core.Converters

/-!
# Instructions without an effect

Instructions without an effect on the memories are inserted into a program. The expansion of
the program stays the same up to them exactly when none is put between two instructions that
need a conversion, and then the run leaves the same memories.
-/

namespace NpuArc

namespace Core

/-- An instruction changes neither memory. -/
def NPUInstruction.NoEffect (instr : NPUInstruction) : Prop :=
  instr.opcode = .nop ∨ instr.opcode = .barrier

instance (instr : NPUInstruction) : Decidable instr.NoEffect :=
  inferInstanceAs (Decidable (_ ∨ _))

/-- An instruction reads another type of elements than the one before it has written. -/
def Converts (prev instr : NPUInstruction) : Prop :=
  prev.opcode.outputDtype.isSome = true ∧ instr.opcode.inputDtype.isSome = true ∧
    prev.opcode.outputDtype ≠ instr.opcode.inputDtype

instance (prev instr : NPUInstruction) : Decidable (Converts prev instr) :=
  inferInstanceAs (Decidable (_ ∧ _ ∧ _))

/-- Insert instructions into a program: the ones of a gap stand before the instruction with
its index, and those of the last gap at the end. -/
def insertAll (gaps : ℕ → List NPUInstruction) : List NPUInstruction → List NPUInstruction
  | [] => gaps 0
  | instr :: program => gaps 0 ++ instr :: insertAll (fun k => gaps (k + 1)) program

/-- Nothing is inserted between two instructions that need a conversion. -/
def KeepsConversions (gaps : ℕ → List NPUInstruction) (program : List NPUInstruction) : Prop :=
  ∀ (k : ℕ) (prev instr : NPUInstruction), program[k]? = some prev → program[k + 1]? = some instr →
    Converts prev instr → gaps (k + 1) = []

/-- The item is an instruction without an effect. -/
def Item.noEffect : Item → Bool
  | .instr i => decide i.NoEffect
  | .int8Clip _ _ _ => false

/-- The items with an effect. -/
def effective (items : List Item) : List Item := items.filter fun item => !item.noEffect

theorem effective_append (items items' : List Item) :
    effective (items ++ items') = effective items ++ effective items' :=
  List.filter_append items items'

/-! ### The expansion -/

section Expansion

variable {prev instr : NPUInstruction} {scratch : ℤ}

theorem convert_of_not_converts (h : ¬Converts prev instr) :
    convert prev instr scratch = .ok ([.instr instr], scratch) := by
  unfold convert
  unfold Converts at h
  cases hout : prev.opcode.outputDtype with
  | none => rfl
  | some out =>
    cases hin : instr.opcode.inputDtype with
    | none => rfl
    | some input =>
      rw [hout, hin] at h
      have heq : out = input := by simpa using h
      exact if_pos heq

theorem NPUInstruction.NoEffect.not_converts_left (h : prev.NoEffect) : ¬Converts prev instr := by
  intro hconverts
  rcases h with h | h <;> rw [Converts, h] at hconverts <;> exact Bool.false_ne_true hconverts.1

theorem NPUInstruction.NoEffect.not_converts_right (h : instr.NoEffect) :
    ¬Converts prev instr := by
  intro hconverts
  rcases h with h | h <;> rw [Converts, h] at hconverts <;> exact Bool.false_ne_true hconverts.2.1

theorem convertFrom_of_not_converts (h : ¬Converts prev instr) (program : List NPUInstruction) :
    convertFrom prev scratch (instr :: program) =
      (convertFrom instr scratch program).map (.instr instr :: ·) := by
  rw [convertFrom, convert_of_not_converts h, bind_eq_ok_left]
  dsimp only
  cases convertFrom instr scratch program <;> rfl

/-- The expansion copies instructions without an effect, and the last one of them stands
before the rest. -/
theorem convertFrom_append {gap : List NPUInstruction} (hgap : ∀ i ∈ gap, i.NoEffect)
    (program : List NPUInstruction) : convertFrom prev scratch (gap ++ program) =
      (convertFrom (gap.getLastD prev) scratch program).map (gap.map Item.instr ++ ·) := by
  induction gap generalizing prev with
  | nil =>
    rw [List.nil_append, List.getLastD_nil]
    cases convertFrom prev scratch program <;> rfl
  | cons i gap ih =>
    obtain ⟨hi, hgap'⟩ := List.forall_mem_cons.mp hgap
    rw [List.cons_append, convertFrom_of_not_converts hi.not_converts_right, ih hgap']
    rw [List.getLastD_cons]
    cases convertFrom (gap.getLastD i) scratch program <;> rfl

theorem effective_gap {gap : List NPUInstruction} (hgap : ∀ i ∈ gap, i.NoEffect) :
    effective (gap.map Item.instr) = [] := by
  refine List.filter_eq_nil_iff.mpr fun item hitem => ?_
  obtain ⟨i, hi, rfl⟩ := List.mem_map.mp hitem
  rw [Item.noEffect, decide_eq_true (hgap i hi)]
  exact Bool.false_ne_true

/-- A conversion before an instruction is decided as without the gap, if the gap leaves the
conversions. -/
theorem convert_getLastD {gap : List NPUInstruction} (hgap : ∀ i ∈ gap, i.NoEffect)
    (hkeeps : Converts prev instr → gap = []) :
    convert (gap.getLastD prev) instr scratch = convert prev instr scratch := by
  cases hg : gap.getLast? with
  | none => rw [List.getLastD_eq_getLast?, hg, Option.getD_none]
  | some i =>
    have hi := hgap i (List.mem_of_getLast? hg)
    have hnot : ¬Converts prev instr := by
      intro hconverts
      rw [hkeeps hconverts] at hg
      cases hg
    rw [List.getLastD_eq_getLast?, hg, Option.getD_some, convert_of_not_converts hnot,
      convert_of_not_converts hi.not_converts_left]

theorem keepsConversions_cons {gaps : ℕ → List NPUInstruction} {program : List NPUInstruction} :
    KeepsConversions gaps (prev :: instr :: program) ↔ (Converts prev instr → gaps 1 = []) ∧
      KeepsConversions (fun k => gaps (k + 1)) (instr :: program) := by
  constructor
  · intro h
    exact ⟨h 0 prev instr rfl rfl, fun k => h (k + 1)⟩
  · rintro ⟨hfirst, hrest⟩ k
    cases k with
    | zero =>
      intro prev' instr' hprev hinstr
      cases hprev
      cases hinstr
      exact hfirst
    | succ k => exact hrest k

/-- The expansion of a program stays the same, up to what is inserted. -/
theorem convertFrom_insertAll {gaps : ℕ → List NPUInstruction}
    (hgaps : ∀ k, ∀ i ∈ gaps k, i.NoEffect) {program : List NPUInstruction} {items : List Item}
    (hkeeps : KeepsConversions gaps (prev :: program))
    (h : convertFrom prev scratch program = .ok items) : ∃ items',
      convertFrom prev scratch (insertAll (fun k => gaps (k + 1)) program) = .ok items' ∧
        effective items' = effective items := by
  induction program generalizing prev scratch gaps items with
  | nil =>
    cases h
    have happend : convertFrom prev scratch (gaps 1 ++ []) = _ := convertFrom_append (hgaps 1) []
    rw [List.append_nil] at happend
    exact ⟨_, happend, (effective_append _ _).trans
      ((List.append_nil _).trans (effective_gap (hgaps 1)))⟩
  | cons instr program ih =>
    obtain ⟨hfirst, hrest⟩ := keepsConversions_cons.mp hkeeps
    rw [convertFrom] at h
    obtain ⟨converted, hconvert, h⟩ := bind_eq_ok.mp h
    obtain ⟨expanded, hexpanded, h⟩ := bind_eq_ok.mp h
    cases h
    obtain ⟨items', hitems', heffective⟩ := ih (fun k => hgaps (k + 1)) hrest hexpanded
    refine ⟨(gaps 1).map Item.instr ++ (converted.1 ++ items'), ?_, ?_⟩
    · rw [insertAll, convertFrom_append (hgaps 1), convertFrom,
        convert_getLastD (hgaps 1) hfirst, hconvert, bind_eq_ok_left]
      dsimp only
      rw [hitems']
      rfl
    · rw [effective_append, effective_gap (hgaps 1), List.nil_append, effective_append,
        effective_append, heffective]

/-! ### The number of conversions -/

/-- The number of conversions before an instruction. -/
def conversions (prev instr : NPUInstruction) : ℕ :=
  if Converts prev instr then if instr.opcode.inputDtype = some .int8 then 2 else 1 else 0

/-- The number of items with an effect in an expansion. -/
def expandedSize (prev : NPUInstruction) : List NPUInstruction → ℕ
  | [] => 0
  | instr :: program =>
    conversions prev instr + (if instr.NoEffect then 0 else 1) + expandedSize instr program

theorem noEffect_conversion {opcode : OpCode} {src dst length : ℤ} :
    (conversion opcode src dst length).NoEffect ↔ opcode = .nop ∨ opcode = .barrier := Iff.rfl

theorem length_convert {items : List Item} {scratch' : ℤ}
    (h : convert prev instr scratch = .ok (items, scratch')) :
    (effective items).length = conversions prev instr + if instr.NoEffect then 0 else 1 := by
  by_cases hconverts : Converts prev instr
  · have heffect : ¬instr.NoEffect := fun hno => hno.not_converts_right hconverts
    have heffect' : ∀ addr, ¬(instr.setSrcAddr addr).NoEffect := fun _ => heffect
    obtain ⟨hout, hin, hne⟩ := hconverts
    obtain ⟨out, hout⟩ := Option.isSome_iff_exists.mp hout
    obtain ⟨input, hin⟩ := Option.isSome_iff_exists.mp hin
    rw [conversions, if_pos ⟨by rw [hout]; rfl, by rw [hin]; rfl, hne⟩, hin, if_neg heffect]
    rw [hout, hin, ne_eq, Option.some_inj] at hne
    rw [convert, hout, hin] at h
    dsimp only at h
    rw [if_neg hne] at h
    cases hdst : prev.dstAddr with
    | none =>
      rw [hdst] at h
      cases h
    | some dst =>
      rw [hdst] at h
      cases out <;> cases input <;> cases h <;>
        simp [effective, Item.noEffect, heffect', noEffect_conversion]
  · rw [convert_of_not_converts hconverts] at h
    cases h
    rw [conversions, if_neg hconverts]
    by_cases hno : instr.NoEffect <;> simp [effective, Item.noEffect, hno]

/-- The number of items with an effect does not depend on the scratch region. -/
theorem length_convertFrom {program : List NPUInstruction} {items : List Item}
    (h : convertFrom prev scratch program = .ok items) :
    (effective items).length = expandedSize prev program := by
  induction program generalizing prev scratch items with
  | nil =>
    cases h
    rfl
  | cons instr program ih =>
    rw [convertFrom] at h
    obtain ⟨converted, hconvert, h⟩ := bind_eq_ok.mp h
    obtain ⟨expanded, hexpanded, h⟩ := bind_eq_ok.mp h
    cases h
    rw [effective_append, List.length_append, length_convert hconvert, ih hexpanded, expandedSize]

theorem expandedSize_append {gap : List NPUInstruction} (hgap : ∀ i ∈ gap, i.NoEffect)
    (program : List NPUInstruction) :
    expandedSize prev (gap ++ program) = expandedSize (gap.getLastD prev) program := by
  induction gap generalizing prev with
  | nil => rfl
  | cons i gap ih =>
    obtain ⟨hi, hgap'⟩ := List.forall_mem_cons.mp hgap
    rw [List.cons_append, expandedSize, conversions, if_neg hi.not_converts_right, if_pos hi,
      ih hgap', List.getLastD_cons]
    omega

/-- A gap can only remove conversions, and it removes those that it separates. -/
theorem conversions_getLastD {gap : List NPUInstruction} (hgap : ∀ i ∈ gap, i.NoEffect) :
    conversions (gap.getLastD prev) instr ≤ conversions prev instr ∧
      (conversions (gap.getLastD prev) instr = conversions prev instr → Converts prev instr →
        gap = []) := by
  cases hg : gap.getLast? with
  | none =>
    rw [List.getLastD_eq_getLast?, hg, Option.getD_none]
    exact ⟨le_rfl, fun _ _ => List.getLast?_eq_none_iff.mp hg⟩
  | some i =>
    have hi := hgap i (List.mem_of_getLast? hg)
    rw [List.getLastD_eq_getLast?, hg, Option.getD_some]
    have hzero : conversions i instr = 0 := if_neg hi.not_converts_left
    refine ⟨by omega, fun heq hconverts => ?_⟩
    rw [hzero, conversions, if_pos hconverts] at heq
    split_ifs at heq

/-- Insertions make the expansion smaller, unless they leave all the conversions. -/
theorem expandedSize_insertAll {gaps : ℕ → List NPUInstruction}
    (hgaps : ∀ k, ∀ i ∈ gaps k, i.NoEffect) (program : List NPUInstruction) :
    expandedSize prev (insertAll (fun k => gaps (k + 1)) program) ≤ expandedSize prev program ∧
      (expandedSize prev (insertAll (fun k => gaps (k + 1)) program) = expandedSize prev program →
        KeepsConversions gaps (prev :: program)) := by
  induction program generalizing prev gaps with
  | nil =>
    have hnil : expandedSize prev (gaps 1 ++ []) = _ := expandedSize_append (hgaps 1) []
    rw [List.append_nil] at hnil
    refine ⟨hnil.le, fun _ k a b _ hb => ?_⟩
    cases hb
  | cons instr program ih =>
    obtain ⟨hle, hkeeps⟩ := @ih instr (fun k => gaps (k + 1)) fun k => hgaps (k + 1)
    obtain ⟨hle', hkeeps'⟩ := @conversions_getLastD prev instr _ (hgaps 1)
    rw [insertAll, expandedSize_append (hgaps 1), expandedSize, expandedSize]
    refine ⟨by omega, fun heq => keepsConversions_cons.mpr ⟨hkeeps' (by omega), hkeeps (by omega)⟩⟩

end Expansion

/-- An expansion is one after an instruction without an effect. -/
theorem insertDtypeConverters_eq (program : List NPUInstruction) (scratchBase : ℤ) :
    insertDtypeConverters program scratchBase =
      convertFrom { opcode := .nop } scratchBase program := by
  cases program with
  | nil => rfl
  | cons instr rest =>
    have hnop : NPUInstruction.NoEffect { opcode := .nop } := .inl rfl
    rw [convertFrom_of_not_converts hnop.not_converts_left, insertDtypeConverters]
    cases convertFrom instr scratchBase rest <;> rfl

theorem keepsConversions_nop {gaps : ℕ → List NPUInstruction} {program : List NPUInstruction} :
    KeepsConversions (fun k => gaps (k - 1)) ({ opcode := .nop } :: program) ↔
      KeepsConversions gaps program := by
  cases program with
  | nil =>
    refine iff_of_true (fun k a b _ hb => ?_) fun k a b ha => ?_
    · cases hb
    · cases ha
  | cons instr program =>
    have hnop : NPUInstruction.NoEffect { opcode := .nop } := .inl rfl
    rw [keepsConversions_cons]
    exact and_iff_right fun h => (hnop.not_converts_left h).elim

/-- The expansion of a program stays the same, up to what is inserted, exactly when nothing is
inserted between two instructions that need a conversion. -/
theorem insertDtypeConverters_insertAll_iff {gaps : ℕ → List NPUInstruction}
    (hgaps : ∀ k, ∀ i ∈ gaps k, i.NoEffect) {program : List NPUInstruction} {scratchBase : ℤ}
    {items : List Item} (hitems : insertDtypeConverters program scratchBase = .ok items) :
    (∃ items', insertDtypeConverters (insertAll gaps program) scratchBase = .ok items' ∧
      effective items' = effective items) ↔ KeepsConversions gaps program := by
  rw [insertDtypeConverters_eq] at hitems
  simp only [insertDtypeConverters_eq]
  rw [← keepsConversions_nop]
  constructor
  · rintro ⟨items', hitems', heffective⟩
    refine (@expandedSize_insertAll _ (fun k => gaps (k - 1)) (fun k => hgaps (k - 1))
      program).2 ?_
    have hlen := length_convertFrom hitems
    have hlen' := length_convertFrom hitems'
    rw [heffective, hlen] at hlen'
    exact hlen'.symm
  · intro hkeeps
    exact convertFrom_insertAll (fun k => hgaps (k - 1)) hkeeps hitems

/-! ### The run -/

/-- The memories after an item, if it is executed without an exception. -/
def itemEffect (u : Units) (fuel : ℕ) (mem : Memory) : Item → Option Memory
  | .instr i => (execute u fuel i mem).bind fun r => r.toOption.map Prod.fst
  | .int8Clip src dst length => (int8Clip mem src dst length).toOption

section Run

variable {u : Units} {fuel : ℕ}

/-- The memories after a run of items are those after their effects. -/
theorem runItem_toMemory {g : GoldenExecutor} {item : Item} {mem : Memory} :
    (∃ g', g.runItem u fuel item = some (.ok g') ∧ g'.toMemory = mem) ↔
      itemEffect u fuel g.toMemory item = some mem := by
  cases item with
  | instr i =>
    rw [GoldenExecutor.runItem, GoldenExecutor.step, itemEffect]
    cases hexecute : execute u fuel i g.toMemory with
    | none => simp
    | some r =>
      cases r with
      | error e => simp [Except.toOption]
      | ok r => simp [Except.toOption]
  | int8Clip src dst length =>
    rw [GoldenExecutor.runItem, itemEffect]
    cases int8Clip g.toMemory src dst length with
    | error e => simp [Except.toOption]
    | ok mem' => simp [Except.toOption]

theorem runItems_toMemory {items : List Item} {g : GoldenExecutor} {mem : Memory} :
    (∃ g', g.runItems u fuel items = some (.ok g') ∧ g'.toMemory = mem) ↔
      items.foldlM (itemEffect u fuel) g.toMemory = some mem := by
  induction items generalizing g with
  | nil => simp [GoldenExecutor.runItems]
  | cons item items ih =>
    rw [List.foldlM_cons, Option.bind_eq_bind, Option.bind_eq_some_iff]
    constructor
    · rintro ⟨g', hrun, hmem⟩
      rw [GoldenExecutor.runItems] at hrun
      split at hrun
      · rename_i g₁ hitem
        exact ⟨g₁.toMemory, runItem_toMemory.mp ⟨g₁, hitem, rfl⟩, ih.mp ⟨g', hrun, hmem⟩⟩
      · rename_i hfail
        exact absurd hrun (hfail g')
    · rintro ⟨mem₁, hitem, hrest⟩
      obtain ⟨g₁, hrunItem, rfl⟩ := runItem_toMemory.mpr hitem
      obtain ⟨g', hrun, hmem⟩ := ih.mpr hrest
      refine ⟨g', ?_, hmem⟩
      rw [GoldenExecutor.runItems, hrunItem]
      exact hrun

/-- Items without an effect can be left out of a run. -/
theorem foldlM_effective (items : List Item) (mem : Memory) :
    (effective items).foldlM (itemEffect u fuel) mem = items.foldlM (itemEffect u fuel) mem := by
  induction items generalizing mem with
  | nil => rfl
  | cons item items ih =>
    cases hno : item.noEffect with
    | true =>
      have hitem : itemEffect u fuel mem item = some mem := by
        cases item with
        | instr i =>
          rcases of_decide_eq_true hno with h | h <;>
            rw [itemEffect, execute, h] <;> dsimp only <;> rw [executeOp, h] <;> rfl
        | int8Clip src dst length => cases hno
      rw [effective, List.filter_cons_of_neg (by rw [hno]; decide), List.foldlM_cons, hitem]
      exact ih mem
    | false =>
      rw [effective, List.filter_cons_of_pos (by rw [hno]; rfl), List.foldlM_cons, List.foldlM_cons]
      congr 1
      funext mem'
      exact ih mem'

end Run

/-- Instructions without an effect that leave the conversions leave the expansion as it is, up
to themselves, and the memories after every run that succeeds. Where they separate two
instructions that need a conversion, the expansion has lost it. -/
theorem insertAll_neutral {gaps : ℕ → List NPUInstruction}
    (hgaps : ∀ k, ∀ i ∈ gaps k, i.NoEffect) {program : List NPUInstruction} {scratchBase : ℤ}
    {items : List Item} (hitems : insertDtypeConverters program scratchBase = .ok items) :
    ((∃ items', insertDtypeConverters (insertAll gaps program) scratchBase = .ok items' ∧
        effective items' = effective items) ↔ KeepsConversions gaps program) ∧
      (KeepsConversions gaps program → ∀ (u : Units) (fuel : ℕ) (g g' : GoldenExecutor),
        g.runOpChain u fuel program scratchBase = some (.ok g') →
          ∃ g'', g.runOpChain u fuel (insertAll gaps program) scratchBase = some (.ok g'') ∧
            g''.toMemory = g'.toMemory) := by
  have hiff := insertDtypeConverters_insertAll_iff hgaps hitems
  refine ⟨hiff, fun hkeeps u fuel g g' hrun => ?_⟩
  obtain ⟨items', hitems', heffective⟩ := hiff.mpr hkeeps
  unfold GoldenExecutor.runOpChain at hrun ⊢
  rw [hitems] at hrun
  rw [hitems']
  have hfold := runItems_toMemory.mp ⟨g', hrun, rfl⟩
  rw [← foldlM_effective, ← heffective, foldlM_effective] at hfold
  exact runItems_toMemory.mpr hfold

/-! ### An instruction between two neighbours -/

/-- A sum of two integers is rectified as a float. -/
def sumThenRelu : List NPUInstruction :=
  [{ opcode := .vadd, operands := .ofList [("sa", 0), ("da", 64), ("len", 1)] },
    { opcode := .relu, operands := .ofList [("sa", 64), ("da", 128), ("len", 1)] }]

/-- A barrier in one gap. -/
def barrierAt (gap k : ℕ) : List NPUInstruction := if k = gap then [{ opcode := .barrier }] else []

theorem noEffect_barrierAt (gap : ℕ) : ∀ k, ∀ i ∈ barrierAt gap k, i.NoEffect := by
  intro k i hi
  unfold barrierAt at hi
  split_ifs at hi
  · obtain rfl := List.mem_singleton.mp hi
    exact .inr rfl
  · cases hi

/-- A core whose first integer is one. -/
def oneAtStart : GoldenExecutor :=
  { GoldenExecutor.init with sram := GoldenExecutor.init.sram.overwrite 0 [1] }

/-- A byte of the on-chip memory after a run that succeeds. -/
def byteAfter (r : Option (Except (Error × GoldenExecutor) GoldenExecutor)) (addr : ℕ) :
    Option UInt8 :=
  (r.bind Except.toOption).bind fun g => (g.sram.slice addr (addr + 1)).head?

theorem exists_of_byteAfter {r : Option (Except (Error × GoldenExecutor) GoldenExecutor)}
    {addr : ℕ} {b : UInt8} (h : byteAfter r addr = some b) :
    ∃ g, r = some (.ok g) ∧ (g.sram.slice addr (addr + 1)).head? = some b := by
  obtain ⟨g, hg, hbyte⟩ := Option.bind_eq_some_iff.mp h
  obtain ⟨r', rfl, hr'⟩ := Option.bind_eq_some_iff.mp hg
  exact ⟨g, congrArg some (toOption_eq_some.mp hr'), hbyte⟩

/-- The sum is converted, so the result is the float one. -/
theorem sumThenRelu_result :
    byteAfter (oneAtStart.runOpChain exampleUnits 0 sumThenRelu 0x380000) 129 = some 0x3C := by
  decide +kernel

/-- A barrier behind the last instruction leaves the memories as they are. -/
theorem sumThenRelu_barrier_last : ∃ g' g'',
    oneAtStart.runOpChain exampleUnits 0 sumThenRelu 0x380000 = some (.ok g') ∧
      oneAtStart.runOpChain exampleUnits 0 (insertAll (barrierAt 2) sumThenRelu) 0x380000 =
        some (.ok g'') ∧ g''.toMemory = g'.toMemory := by
  obtain ⟨g', hrun, -⟩ := exists_of_byteAfter sumThenRelu_result
  obtain ⟨items, hitems⟩ : ∃ items, insertDtypeConverters sumThenRelu 0x380000 = .ok items :=
    ⟨_, rfl⟩
  have hkeeps : KeepsConversions (barrierAt 2) sumThenRelu := by
    intro k prev instr _ hinstr _
    have hlt := (List.getElem?_eq_some_iff.mp hinstr).1
    change k + 1 < 2 at hlt
    exact if_neg (by omega)
  obtain ⟨g'', hrun', hmem⟩ :=
    (insertAll_neutral (noEffect_barrierAt 2) hitems).2 hkeeps exampleUnits 0 oneAtStart g' hrun
  exact ⟨g', g'', hrun, hrun', hmem⟩

/-- A barrier between the instructions removes the conversion, so the bits of the integer are
rectified as those of a float. -/
theorem sumThenRelu_barrier_between : ∃ g₁ g₂,
    oneAtStart.runOpChain exampleUnits 0 sumThenRelu 0x380000 = some (.ok g₁) ∧
      oneAtStart.runOpChain exampleUnits 0 (insertAll (barrierAt 1) sumThenRelu) 0x380000 =
        some (.ok g₂) ∧ g₁.sram ≠ g₂.sram := by
  have hbarrier : byteAfter (oneAtStart.runOpChain exampleUnits 0
      (insertAll (barrierAt 1) sumThenRelu) 0x380000) 129 = some 0 := by decide +kernel
  obtain ⟨g₁, hrun₁, hbyte₁⟩ := exists_of_byteAfter sumThenRelu_result
  obtain ⟨g₂, hrun₂, hbyte₂⟩ := exists_of_byteAfter hbarrier
  refine ⟨g₁, g₂, hrun₁, hrun₂, fun heq => ?_⟩
  rw [heq, hbyte₂] at hbyte₁
  exact absurd (Option.some_inj.mp hbyte₁) (by decide)

end Core

end NpuArc
