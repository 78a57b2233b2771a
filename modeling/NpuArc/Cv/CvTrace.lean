import NpuArc.Cv.ConvMapper
import NpuArc.Library.Dict
import Mathlib.Algebra.BigOperators.Group.List.Defs
import Mathlib.Algebra.Order.Floor.Div

/-!
# Traces of vision models

The layers of an imported model become the entries of a trace. Convolutions and classifier heads get
the dimensions of a matrix product, activations the cycles of the unit of special functions, and the
remaining layers neither.
-/

namespace NpuArc

namespace Cv

open Engines

/-! ### Layers -/

/-- A layer of an imported model. The parameters of a convolution stand for themselves where the
layer has none. -/
structure ImportedLayer where
  type : String
  name : String
  inShape : Option (List ℤ) := none
  outShape : Option (List ℤ) := none
  kernel : Option (List ℤ) := none
  stride : List ℤ := [1, 1]
  padding : List ℤ := [0, 0, 0, 0]
  groups : ℤ := 1
  deriving DecidableEq

/-- An entry of a trace, with the defaults of what it leaves out. -/
structure TraceEntry where
  type : String := ""
  name : String := ""
  m : ℤ := 0
  k : ℤ := 0
  n : ℤ := 0
  im2colOverheadCycles : ℚ := 0
  sfuCycles : ℕ := 0
  inShape : Option (List ℤ) := none
  deriving DecidableEq

/-- The elements that the unit of special functions processes in a cycle. -/
def sfuWidth : ℕ := 128

/-- The types of entries by the types of operators. -/
def typeMap : Dict String String := .ofList
  [("HardSwish", "hard_swish"), ("HardSigmoid", "hard_sigmoid"), ("Relu", "relu"), ("Add", "add"),
    ("Mul", "mul"), ("GlobalAveragePool", "global_avg_pool"), ("ReduceMean", "global_avg_pool"),
    ("Reshape", "reshape"), ("Squeeze", "reshape"), ("Shape", "shape"), ("Concat", "concat")]

/-- The operators whose entries get cycles of the unit of special functions. -/
def sfuOpTypes : List String := ["HardSwish", "HardSigmoid", "Relu"]

/-- The elements of a shape. A symbolic dimension is one. -/
def elementCount (shape : Option (List ℤ)) : ℕ :=
  shape.elim 0 fun dims => (dims.map fun d => (max d 1).toNat).prod

/-- The cycles of the unit of special functions. -/
def computeSfuCycles (shape : Option (List ℤ)) : ℕ := elementCount shape ⌈/⌉ sfuWidth

/-- A dimension of a shape, or a default if the shape does not have it. -/
def dimension (shape : Option (List ℤ)) (axis : ℕ) (default : ℤ) : ℤ :=
  (shape.getD [])[axis]?.getD default

namespace ImportedLayer

/-- The matrix product of a convolution. -/
def convGemm (layer : ImportedLayer) : Except Failure ConvGemm :=
  mapConvToGemm (dimension layer.inShape 1 1) (dimension layer.outShape 1 1)
    (dimension layer.inShape 2 1) (dimension layer.inShape 3 1) (dimension layer.kernel 0 1)
    (layer.stride.head?.getD 1) (layer.padding.head?.getD 0) layer.groups

end ImportedLayer

/-- The entry of a convolution. -/
def convFromLayer (layer : ImportedLayer) : Except Failure TraceEntry := do
  let result ← layer.convGemm
  .ok
    { type := if layer.type = "depthwise_conv" then "depthwise_conv" else "pointwise_conv"
      name := layer.name
      m := result.m
      k := result.k
      n := result.n
      im2colOverheadCycles := result.im2colOverheadCycles }

/-- The entry of a classifier head, for a single image. -/
def gemmFromLayer (layer : ImportedLayer) : TraceEntry where
  type := "gemm"
  name := layer.name
  m := 1
  k := dimension layer.inShape 1 0
  n := dimension layer.outShape 1 0

/-- The entry of a layer. -/
def entryFromLayer (layer : ImportedLayer) : Except Failure TraceEntry :=
  if layer.type ∈ ["Conv", "depthwise_conv"] then convFromLayer layer
  else if layer.type = "Gemm" then .ok (gemmFromLayer layer)
  else if layer.type ∈ sfuOpTypes then
    .ok
      { type := (typeMap.get? layer.type).getD layer.type
        name := layer.name
        sfuCycles := computeSfuCycles layer.outShape }
  else if typeMap.contains layer.type then
    .ok { type := (typeMap.get? layer.type).getD layer.type, name := layer.name }
  else
    .error (.raised (.unsupportedOperatorError ("CV trace layer " ++ reprStr layer.name ++
      " uses unsupported operator " ++ reprStr layer.type) layer.type layer.name))

/-- The entries of the layers of a model. -/
def traceEntries (layers : List ImportedLayer) : Except Failure (List TraceEntry) :=
  layers.mapM entryFromLayer

/-! ### The check of a trace -/

/-- How a trace fails. -/
inductive TraceFailure
  | raised (failure : Failure)
  | assertionError (message : String)

/-- The multiply-accumulates of a trace. -/
def totalMacs (trace : List TraceEntry) : ℤ := (trace.map fun e => e.m * e.k * e.n).sum

/-- Digits in groups of three, from the last. -/
def groupDigits : List Char → List Char
  | a :: b :: c :: d :: rest => a :: b :: c :: ',' :: groupDigits (d :: rest)
  | digits => digits

/-- An integer with its thousands separated. -/
def thousands (i : ℤ) : String :=
  let digits := (Nat.toDigits 10 i.natAbs).reverse
  (if i < 0 then "-" else "") ++ String.ofList (groupDigits digits).reverse

/-- The trace of the layers of a model, whose multiply-accumulates must be in an expected range. -/
def generateMobilenetv3Trace (layers : List ImportedLayer) :
    Except TraceFailure (List TraceEntry) :=
  match traceEntries layers with
  | .error failure => .error (.raised failure)
  | .ok trace =>
    if 50000000 ≤ totalMacs trace ∧ totalMacs trace ≤ 62000000 then .ok trace
    else
      .error (.assertionError ("Total MACs " ++ thousands (totalMacs trace) ++
        " is outside expected range [50M, 62M]"))

end Cv

end NpuArc
