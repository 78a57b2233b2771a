import NpuArc.Core.Isa

/-!
# The instruction compiler

A trace of matrix multiplications becomes a program. Every buffer has one address, which does
not fit the address fields of the encoding, so no load survives it. Weights are loaded where a
new layer begins, for its first multiplication only.
-/

namespace NpuArc

namespace Core

/-- One multiplication of a trace: its dimensions, its layer and its name. -/
structure TraceOp where
  m : ℤ
  k : ℤ
  n : ℤ
  layer : ℤ
  opName : String

/-! ### Addresses -/

/-- The regions of the on-chip memory. -/
inductive Region
  | wbuf
  | ibuf
  | ibuf2
  | obuf
  | scratch
  deriving DecidableEq

/-- The base address of a region. -/
def Region.base : Region → ℤ
  | .wbuf => 0x00000
  | .ibuf => 0x20000
  | .ibuf2 => 0x30000
  | .obuf => 0x40000
  | .scratch => 0x60000

/-- Allocate an address: every allocation is at the base of the scratch region. -/
def alloc (_elements : ℤ) : ℤ := Region.scratch.base

/-- The next address in a region. -/
def next (region : Region) : ℤ := region.base

/-! ### The program -/

/-- The load of the weights of an operator that begins a layer. -/
def loadWeights (op : TraceOp) : NPUInstruction where
  opcode := .dmaLd
  operands := .ofList [("dram", alloc (op.k * op.n)), ("sram", next .wbuf), ("size", op.k * op.n)]
  comment := s!"Load W layer={op.layer}"

/-- The instructions where the layer changes. -/
def layerTransition (weightPreloaded : Bool) (prevLayer : ℤ) (op : TraceOp) :
    List NPUInstruction :=
  if op.layer ≠ prevLayer then
    (if prevLayer ≥ 0 then [{ opcode := .barrier }] else []) ++
      (if weightPreloaded then [] else [loadWeights op]) ++
      [{ opcode := .kvLoad, operands := .ofList [("token_id", op.layer)],
         comment := s!"KV prefetch layer={op.layer}" }]
  else []

/-- The multiplication of an operator. -/
def multiply (op : TraceOp) : NPUInstruction where
  opcode := .mmul
  operands := .ofList [("wa", next .wbuf), ("ia", alloc (op.m * op.k)),
    ("oa", alloc (op.m * op.n)), ("N", op.n)]
  comment := s!"{op.opName} ({op.m}×{op.k}×{op.n})"

/-- The load of the activation of the next operator. -/
def prefetchActivation (op : TraceOp) : NPUInstruction where
  opcode := .dmaLd
  operands := .ofList [("dram", alloc (op.m * op.k)), ("sram", next .ibuf), ("size", op.m * op.k)]
  comment := "Prefetch activation"

/-- An operator on the output of a multiplication. -/
def onOutput (opcode : OpCode) (op : TraceOp) (len : ℤ) (comment : String) : NPUInstruction where
  opcode := opcode
  operands := .ofList [("sa", alloc (op.m * op.n)), ("da", alloc (op.m * op.n)), ("len", len)]
  comment := comment

/-- The special functions at the boundaries of a layer. -/
def specialFunctions (op : TraceOp) : List NPUInstruction :=
  if op.opName = "O_proj" then
    [onOutput .softmax op 2560 "Post-attention softmax",
      onOutput .layernorm op 2560 "Post-attention layernorm",
      onOutput .rope op 2560 "RoPE position encoding"]
  else if op.opName = "FFN_down" then
    [onOutput .gelu op 9728 "FFN GELU activation",
      onOutput .layernorm op 2560 "Post-FFN layernorm"]
  else []

/-- The instructions behind the multiplication of an operator. -/
def afterMultiply (op : TraceOp) : List NPUInstruction :=
  prefetchActivation op :: specialFunctions op ++
    [{ opcode := .kvStore, operands := .ofList [("token_id", op.layer)],
       comment := s!"KV persist layer={op.layer}" }]

/-- The instructions of the operators behind some layer. -/
def compileFrom (weightPreloaded : Bool) : ℤ → List TraceOp → List NPUInstruction
  | _, [] => []
  | prevLayer, op :: trace =>
    layerTransition weightPreloaded prevLayer op ++ multiply op :: afterMultiply op ++
      compileFrom weightPreloaded op.layer trace

/-- Compile the trace of a decoded token to a program. -/
def compileDecode (trace : List TraceOp) (weightPreloaded : Bool) : List NPUInstruction :=
  compileFrom weightPreloaded (-1) trace ++
    [{ opcode := .barrier }, { opcode := .nop, comment := "decode complete" }]

/-! ### The encoding of a program -/

theorem dramField_ne (w0 : ℕ) : (((w0 >>> 15 &&& 0xFFF) <<< 4 : ℕ) : ℤ) ≠ Region.scratch.base := by
  have hle : w0 >>> 15 &&& 0xFFF ≤ 0xFFF := Nat.and_le_right
  rw [Nat.shiftLeft_eq, Region.base]
  omega

/-- A load from the scratch region is not read back: its address has no bit in the field. -/
theorem prefetchActivation_not_survives (op : TraceOp) : ¬Survives (prefetchActivation op) := by
  rintro ⟨instr', hdecode, hopcode, hoperands⟩
  obtain ⟨opcode, -, hinstr⟩ := bind_eq_ok.mp hdecode
  cases hinstr
  obtain rfl : opcode = .dmaLd := hopcode
  exact dramField_ne _ (Option.some_inj.mp (hoperands "dram"))

/-- Every instruction of the compiled program survives the encoding exactly when the trace has
no operator. -/
theorem compileDecode_survives_iff (trace : List TraceOp) (weightPreloaded : Bool) :
    (∀ instr ∈ compileDecode trace weightPreloaded, Survives instr) ↔ trace = [] := by
  constructor
  · intro h
    cases trace with
    | nil => rfl
    | cons op trace =>
      refine absurd (h (prefetchActivation op) ?_) (prefetchActivation_not_survives op)
      simp [compileDecode, compileFrom, afterMultiply]
  · rintro rfl instr hinstr
    rcases List.mem_cons.mp hinstr with rfl | hinstr
    · exact ⟨_, rfl, rfl, fun _ => rfl⟩
    · obtain rfl := List.mem_singleton.mp hinstr
      exact ⟨_, rfl, rfl, fun _ => rfl⟩

/-- The prefetch of one operator does not survive the encoding. -/
theorem one_operator_not_survives :
    ¬∀ instr ∈ compileDecode [⟨1, 2560, 2560, 0, "Q_proj"⟩] false, Survives instr := by
  intro h
  refine prefetchActivation_not_survives ⟨1, 2560, 2560, 0, "Q_proj"⟩ (h _ ?_)
  simp [compileDecode, compileFrom, afterMultiply]

/-! ### The weights of a multiplication -/

/-- Every multiplication of a program has a load of its weights of its own: behind the
multiplication before it there is a load of as many weights at the address that it reads. -/
def EachLoaded : List TraceOp → List NPUInstruction → Prop
  | [], program => ∀ instr ∈ program, instr.opcode ≠ .mmul
  | op :: trace, program => ∃ before mmul after, program = before ++ mmul :: after ∧
      (∀ instr ∈ before, instr.opcode ≠ .mmul) ∧ mmul.opcode = .mmul ∧
      (∃ load ∈ before, load.opcode = .dmaLd ∧
        load.operands.get? "sram" = mmul.operands.get? "wa" ∧
        load.operands.get? "size" = some (op.k * op.n)) ∧
      EachLoaded trace after

/-- Every operator has another layer than the one before it. -/
def LayersChange : ℤ → List TraceOp → Prop
  | _, [] => True
  | prevLayer, op :: trace => op.layer ≠ prevLayer ∧ LayersChange op.layer trace

/-- The number of weights that an instruction loads into the weight buffer. -/
def weightsLoaded (instr : NPUInstruction) : ℤ :=
  if instr.opcode = .dmaLd ∧ instr.operand "sram" 0 = Region.wbuf.base then
    instr.operand "size" 0
  else 0

/-- The number of weights that the multiplications of a trace use. -/
def weightsUsed (trace : List TraceOp) : ℤ := (trace.map fun op => op.k * op.n).sum

section Weights

variable {op : TraceOp} {trace : List TraceOp} {prevLayer : ℤ}

/-- A list is cut in one way at the first element with a property. -/
theorem append_cons_inj {α : Type} {p : α → Prop} {l l' r r' : List α} {a a' : α}
    (h : l ++ a :: r = l' ++ a' :: r') (hl : ∀ x ∈ l, ¬p x) (hl' : ∀ x ∈ l', ¬p x) (ha : p a)
    (ha' : p a') : l = l' ∧ a = a' ∧ r = r' := by
  induction l generalizing l' with
  | nil =>
    cases l' with
    | nil =>
      cases h
      exact ⟨rfl, rfl, rfl⟩
    | cons x l' =>
      cases h
      exact absurd ha (hl' a List.mem_cons_self)
  | cons x l ih =>
    cases l' with
    | nil =>
      cases h
      exact absurd ha' (hl a' List.mem_cons_self)
    | cons x' l' =>
      obtain ⟨rfl, htail⟩ := List.cons.inj h
      obtain ⟨rfl, rfl, rfl⟩ := ih htail (fun y hy => hl y (List.mem_cons_of_mem x hy))
        fun y hy => hl' y (List.mem_cons_of_mem x hy)
      exact ⟨rfl, rfl, rfl⟩

theorem layerTransition_no_mmul (weightPreloaded : Bool) (prevLayer : ℤ) (op : TraceOp) :
    ∀ instr ∈ layerTransition weightPreloaded prevLayer op, instr.opcode ≠ .mmul := by
  unfold layerTransition
  split_ifs <;> simp [loadWeights]

theorem afterMultiply_no_mmul (op : TraceOp) : ∀ instr ∈ afterMultiply op, instr.opcode ≠ .mmul := by
  unfold afterMultiply specialFunctions
  split_ifs <;> simp [prefetchActivation, onOutput]

/-- An instruction loads into the weight buffer. -/
def LoadsWeights (instr : NPUInstruction) : Prop :=
  instr.opcode = .dmaLd ∧ instr.operands.get? "sram" = some Region.wbuf.base

/-- Behind a multiplication only its activation is loaded, into another buffer. -/
theorem afterMultiply_no_weights (op : TraceOp) : ∀ instr ∈ afterMultiply op, ¬LoadsWeights instr := by
  have hprefetch : ¬LoadsWeights (prefetchActivation op) := by
    rintro ⟨-, hsram⟩
    exact absurd (Option.some_inj.mp hsram) (by decide)
  have hother : ∀ instr : NPUInstruction, instr.opcode ≠ .dmaLd → ¬LoadsWeights instr :=
    fun _ hopcode hloads => hopcode hloads.1
  unfold afterMultiply specialFunctions
  split_ifs <;> simp [hprefetch, hother, onOutput]

theorem eachLoaded_compileFrom_iff {before : List NPUInstruction} {tail : List NPUInstruction}
    (hmmul : ∀ instr ∈ before, instr.opcode ≠ .mmul)
    (hweights : ∀ instr ∈ before, ¬LoadsWeights instr)
    (htail : ∀ instr ∈ tail, instr.opcode ≠ .mmul) :
    EachLoaded trace (before ++ (compileFrom false prevLayer trace ++ tail)) ↔
      LayersChange prevLayer trace := by
  induction trace generalizing prevLayer before with
  | nil =>
    refine iff_of_true (fun instr hinstr => ?_) trivial
    rcases List.mem_append.mp hinstr with h | h
    · exact hmmul instr h
    · exact htail instr h
  | cons op trace ih =>
    have hrest := @ih op.layer _ (afterMultiply_no_mmul op) (afterMultiply_no_weights op)
    have hbefore : ∀ instr ∈ before ++ layerTransition false prevLayer op, ¬instr.opcode = .mmul := by
      intro instr hinstr
      rcases List.mem_append.mp hinstr with h | h
      · exact hmmul instr h
      · exact layerTransition_no_mmul false prevLayer op instr h
    have hprogram : before ++ (compileFrom false prevLayer (op :: trace) ++ tail) =
        (before ++ layerTransition false prevLayer op) ++ multiply op ::
          (afterMultiply op ++ (compileFrom false op.layer trace ++ tail)) := by
      simp [compileFrom]
    rw [hprogram, LayersChange, ← hrest]
    constructor
    · rintro ⟨front, mmul, after, heq, hfront, hop, ⟨load, hload, hld, hsram, -⟩, hloaded⟩
      obtain ⟨rfl, rfl, rfl⟩ := append_cons_inj heq hbefore hfront rfl hop
      refine ⟨?_, hloaded⟩
      -- Only a transition loads into the buffer that the multiplication reads.
      rcases List.mem_append.mp hload with h | h
      · exact absurd ⟨hld, hsram⟩ (hweights load h)
      · intro hlayer
        rw [layerTransition, if_neg (not_not_intro hlayer)] at h
        cases h
    · rintro ⟨hlayer, hloaded⟩
      refine ⟨_, _, _, rfl, hbefore, rfl, ⟨loadWeights op, ?_, rfl, rfl, rfl⟩, hloaded⟩
      rw [layerTransition, if_pos hlayer]
      simp

/-- The number of weights that are loaded where the layer changes. -/
def weightsOfLayers : ℤ → List TraceOp → ℤ
  | _, [] => 0
  | prevLayer, op :: trace =>
    (if op.layer ≠ prevLayer then op.k * op.n else 0) + weightsOfLayers op.layer trace

theorem weightsLoaded_of_ne {instr : NPUInstruction} (h : instr.opcode ≠ .dmaLd) :
    weightsLoaded instr = 0 :=
  if_neg fun hload => h hload.1

theorem sum_layerTransition (prevLayer : ℤ) (op : TraceOp) :
    ((layerTransition false prevLayer op).map weightsLoaded).sum =
      if op.layer ≠ prevLayer then op.k * op.n else 0 := by
  have hload : weightsLoaded (loadWeights op) = op.k * op.n := rfl
  by_cases hlayer : op.layer ≠ prevLayer
  · rw [layerTransition, if_pos hlayer, if_pos hlayer]
    split_ifs <;> simp_all [weightsLoaded_of_ne]
  · rw [layerTransition, if_neg hlayer, if_neg hlayer]
    rfl

theorem sum_multiply (op : TraceOp) :
    ((multiply op :: afterMultiply op).map weightsLoaded).sum = 0 := by
  have hprefetch : weightsLoaded (prefetchActivation op) = 0 := rfl
  unfold afterMultiply specialFunctions
  split_ifs <;> simp [hprefetch, weightsLoaded_of_ne, onOutput, multiply]

theorem sum_compileFrom : ((compileFrom false prevLayer trace).map weightsLoaded).sum =
    weightsOfLayers prevLayer trace := by
  induction trace generalizing prevLayer with
  | nil => rfl
  | cons op trace ih =>
    have hmultiply := sum_multiply op
    rw [List.map_cons, List.sum_cons] at hmultiply
    rw [compileFrom, weightsOfLayers, ← ih, ← sum_layerTransition]
    simp only [List.map_append, List.sum_append, List.map_cons, List.sum_cons]
    omega

theorem weightsOfLayers_of_layersChange (h : LayersChange prevLayer trace) :
    weightsOfLayers prevLayer trace = weightsUsed trace := by
  induction trace generalizing prevLayer with
  | nil => rfl
  | cons op trace ih =>
    rw [weightsOfLayers, if_pos h.1, ih h.2]
    rfl

theorem weightsUsed_cons (op : TraceOp) (trace : List TraceOp) :
    weightsUsed (op :: trace) = op.k * op.n + weightsUsed trace := rfl

/-- Where every operator has weights, a layer that does not change loads too few. -/
theorem weightsOfLayers_le (hpos : ∀ op ∈ trace, 0 < op.k * op.n) :
    weightsOfLayers prevLayer trace ≤ weightsUsed trace ∧
      (weightsOfLayers prevLayer trace = weightsUsed trace → LayersChange prevLayer trace) := by
  induction trace generalizing prevLayer with
  | nil => exact ⟨le_rfl, fun _ => trivial⟩
  | cons op trace ih =>
    obtain ⟨hop, hrest⟩ := List.forall_mem_cons.mp hpos
    obtain ⟨hle, hchange⟩ := @ih op.layer hrest
    rw [weightsOfLayers, weightsUsed_cons]
    split_ifs with hlayer
    · exact ⟨by omega, fun heq => ⟨hlayer, hchange (by omega)⟩⟩
    · exact ⟨by omega, fun heq => by omega⟩

end Weights

/-- Every multiplication of the compiled program has a load of its weights of its own exactly
when every operator begins a layer. Then as many weights are loaded as are used, and for
operators that have weights only then. -/
theorem compileDecode_eachLoaded_iff (trace : List TraceOp) :
    (EachLoaded trace (compileDecode trace false) ↔ LayersChange (-1) trace) ∧
      (LayersChange (-1) trace →
        ((compileDecode trace false).map weightsLoaded).sum = weightsUsed trace) ∧
      ((∀ op ∈ trace, 0 < op.k * op.n) →
        ((compileDecode trace false).map weightsLoaded).sum = weightsUsed trace →
          LayersChange (-1) trace) := by
  have htail : ∀ instr ∈ [({ opcode := .barrier } : NPUInstruction),
      { opcode := .nop, comment := "decode complete" }], instr.opcode ≠ .mmul := by
    simp
  have hiff : EachLoaded trace (compileDecode trace false) ↔ LayersChange (-1) trace :=
    @eachLoaded_compileFrom_iff _ _ [] _ (by simp) (by simp) htail
  have hsum : ((compileDecode trace false).map weightsLoaded).sum = weightsOfLayers (-1) trace := by
    rw [compileDecode, List.map_append, List.sum_append, sum_compileFrom]
    exact add_zero _
  rw [hsum]
  exact ⟨hiff, weightsOfLayers_of_layersChange, fun hpos => (weightsOfLayers_le hpos).2⟩

/-- The second operator of a layer has no load of its weights. -/
theorem second_operator_not_loaded :
    ¬EachLoaded [⟨1, 64, 64, 0, "Q_proj"⟩, ⟨1, 64, 128, 0, "K_proj"⟩]
      (compileDecode [⟨1, 64, 64, 0, "Q_proj"⟩, ⟨1, 64, 128, 0, "K_proj"⟩] false) := by
  intro h
  have hchange : LayersChange (-1) [⟨1, 64, 64, 0, "Q_proj"⟩, ⟨1, 64, 128, 0, "K_proj"⟩] :=
    (@eachLoaded_compileFrom_iff _ _ [] _ (by simp) (by simp) (by simp)).mp h
  exact hchange.2.1 rfl

end Core

end NpuArc
