import NpuArc.Dse.Explorer
import NpuArc.Engines.Creation

/-!
# The models of decoding and prefilling

The cycles of a decoded token and those of a prefilled one should be those of the same model, but
for the reads of the KV cache. A prefill takes the products of the selected model, a decoded token
those of the default model and the KV cache of the selected one.
-/

namespace NpuArc

namespace Explorer

open Engines Residency Simulator

/-- A decoded token takes the cycles of a prefilled one and those of reading the KV cache. -/
def SameModel (py : Builtins) (c : HardwareConfig) (modelAlias : String) : Prop :=
  ∀ spec layer kv prefill, getSpec modelAlias = .ok spec →
    simulateLayer py c (some 1) (some spec.kvHeads) (some spec.headDim) = .ok layer →
    computeKvCycles c 1 spec.kvHeads spec.headDim = .ok kv →
    simulatePrefill py c 1 modelAlias = .ok prefill →
    layer.cycles - kv = prefill

/-- A decoded token takes the cycles of the products of the default model. -/
theorem simulateLayer_spec {py : Builtins} {c : HardwareConfig} {kvHeads headDim kv : ℕ}
    {layer : OpsTotals} (hkv : computeKvCycles c 1 kvHeads headDim = .ok kv)
    (h : simulateLayer py c (some 1) (some kvHeads) (some headDim) = .ok layer) :
    simulatePrefill py c 1 defaultLlmSpec = .ok (layer.cycles - kv) := by
  unfold simulateLayer at h
  obtain ⟨spec, hspec, h⟩ := bind_eq_ok.mp h
  obtain ⟨trace, htrace, h⟩ := bind_eq_ok.mp h
  obtain ⟨totals, htotals, h⟩ := bind_eq_ok.mp h
  obtain ⟨kv', hkv', h⟩ := bind_eq_ok.mp h
  rw [Option.getD_some, Option.getD_some, Option.getD_some, hkv] at hkv'
  cases hkv'
  cases h
  rw [Option.getD_some] at htrace
  rw [simulatePrefill, hspec, bind_eq_ok_left, htrace, bind_eq_ok_left, htotals, bind_eq_ok_left]
  exact congrArg Except.ok (Int.add_sub_cancel _ _).symm

theorem sameModel_default (py : Builtins) (c : HardwareConfig) :
    SameModel py c defaultLlmSpec := by
  intro spec layer kv prefill _ hlayer hkv hprefill
  rw [simulateLayer_spec hkv hlayer] at hprefill
  exact Except.ok.inj hprefill

/-- An array of blocks with the default memory. -/
def blockArray : HardwareConfig := (HardwareConfigV2.squareArray "block" 127).toConfig

/-- On this array, the products of any other model take other cycles than those of the default
model. -/
theorem blockArray_differs {modelAlias : String} (hmem : modelAlias ∈ llmAliases)
    (hother : modelAlias ≠ defaultLlmSpec) : ¬SameModel sampleBuiltins blockArray modelAlias := by
  have htest : ∀ modelAlias ∈ llmAliases, modelAlias ≠ defaultLlmSpec →
      ((getSpec modelAlias).toOption.any fun spec =>
        (simulateLayer sampleBuiltins blockArray (some 1) (some spec.kvHeads)
          (some spec.headDim)).toOption.any fun (layer : OpsTotals) =>
        (computeKvCycles blockArray 1 spec.kvHeads spec.headDim).toOption.any fun (kv : ℕ) =>
        (simulatePrefill sampleBuiltins blockArray 1 modelAlias).toOption.any fun prefill =>
          decide (layer.cycles - (kv : ℤ) ≠ prefill)) = true := by
    decide +kernel
  obtain ⟨spec, hspec, h⟩ := (Option.any_eq_true _ _).mp (htest modelAlias hmem hother)
  obtain ⟨layer, hlayer, h⟩ := (Option.any_eq_true _ _).mp h
  obtain ⟨kv, hkv, h⟩ := (Option.any_eq_true _ _).mp h
  obtain ⟨prefill, hprefill, h⟩ := (Option.any_eq_true _ _).mp h
  intro hsame
  exact of_decide_eq_true h (hsame spec layer kv prefill (toOption_eq_some.mp hspec)
    (toOption_eq_some.mp hlayer) (toOption_eq_some.mp hkv) (toOption_eq_some.mp hprefill))

/-- Decoding and prefilling simulate the same model in all configurations exactly when the selected
model is the default one. -/
theorem sameModel_iff {modelAlias : String} (hmem : modelAlias ∈ llmAliases) :
    (∀ py c, SameModel py c modelAlias) ↔ modelAlias = defaultLlmSpec := by
  constructor
  · intro hsame
    by_contra hother
    exact blockArray_differs hmem hother (hsame _ _)
  · rintro rfl
    exact sameModel_default

theorem sameModel_iff_default :
    (∀ py c, SameModel py c "qwen2.5-3b") ↔ "qwen2.5-3b" = defaultLlmSpec :=
  sameModel_iff (by decide)

/-- A decoded token of a larger model takes the cycles of the default model. -/
theorem sevenB_decodes_default :
    ¬∀ (py : Builtins) (c : HardwareConfig), ∀ modelAlias ∈ llmAliases,
      SameModel py c modelAlias := by
  intro h
  have hmem : "qwen2.5-7b" ∈ llmAliases := by decide
  exact blockArray_differs hmem (by decide) (h sampleBuiltins blockArray _ hmem)

end Explorer

end NpuArc
