import NpuArc.Engines.MacEngine
import NpuArc.Simulator.Config
import Mathlib.Tactic.Linarith
import Mathlib.Data.Rat.Floor

/-!
# The KV cache

The cache holds a window of the keys and values of a layer. An access reads those of all earlier
tokens, and tokens outside the window are read from memory, with a bandwidth for random reads and a
penalty for each. The cost of a decode step is a fixed one, or a share of the access where many
tokens miss the window.
-/

namespace NpuArc

namespace Simulator

open Engines Residency

/-- The KV cache. -/
structure KvCacheModel where
  sramBytes : ℕ
  dramRegionMb : ℕ
  elementBytes : ℕ
  bwBytesPerCycle : ℚ
  randomLatencyPenaltyCycles : ℕ
  perLayerKvBytes : ℕ := 0
  maxSramTokens : ℕ := 0
  maxTotalTokens : ℕ := 0
  numLayers : ℕ := 0
  bwBytesPerCycle_nonneg : 0 ≤ bwBytesPerCycle

/-- The result of an access. -/
structure KvCacheResult where
  hit : Bool
  accessCycles : ℕ
  sramHitRate : ℚ

namespace KvCacheModel

/-- The cycles of an access to the window. -/
def sramAccessCycles : ℕ := 2

/-- The bandwidth of random reads, from the fastest tier that holds keys and values or else from the
external memory. -/
def readBandwidth (c : SimulatorConfig) (tiers : List BandwidthTier) (plan : MemoryAccessPlan) :
    Except Failure ℚ :=
  match fastestAllocatedTier plan .kv with
  | none => .ok (PosRat.orDefault c.memory.bandwidthGbps 51.2)
  | some kvFastest =>
    match tiers.find? fun tier => decide (tier.name = kvFastest) with
    | none => .error (.keyError ("tier not found: " ++ reprStr kvFastest))
    | some tier => .ok tier.readBwGbps

theorem readBandwidth_pos {c : SimulatorConfig} {tiers : List BandwidthTier}
    {plan : MemoryAccessPlan} {bw : ℚ} (h : readBandwidth c tiers plan = .ok bw) : 0 < bw := by
  unfold readBandwidth at h
  split at h
  · cases h
    exact PosRat.orDefault_pos (by norm_num)
  · split at h
    · cases h
    · next tier _ =>
      cases h
      exact tier.readBwGbps_pos

/-- The cache of a configuration. -/
def create (c : SimulatorConfig) (tiers : List BandwidthTier) (plan : MemoryAccessPlan) :
    Except Failure KvCacheModel :=
  let efficiency := UnitRat.orDefault c.memory.dramEfficiencyRandomBw 0.50
  let freqMhz := PosRat.orDefault c.mac.frequencyMhz 1000
  match hread : readBandwidth c tiers plan with
  | .error err => .error err
  | .ok readBw =>
    match hbw : bandwidthGbpsToBytesPerCycle (readBw * efficiency) freqMhz with
    | .error err => .error err
    | .ok bw =>
      .ok
        { sramBytes := c.kvCache.sramKb * 1024
          dramRegionMb := c.kvCache.dramRegionMb
          elementBytes := c.kvCache.precisionBits / 8
          bwBytesPerCycle := bw
          randomLatencyPenaltyCycles := c.memory.randomLatencyPenaltyCycles.getD 40
          bwBytesPerCycle_nonneg := bytesPerCycle_nonneg hbw
            (mul_nonneg (readBandwidth_pos hread).le (UnitRat.orDefault_nonneg (by norm_num))) }

/-- Set the parameters of a model: how many tokens fit in the window and in the memory. -/
def configureForModel (kv : KvCacheModel) (numKvHeads headDim numLayers maxContext : ℕ) :
    Except Failure KvCacheModel :=
  let kvPerTokenPerLayer := numKvHeads * headDim * 2 * kv.elementBytes
  if kvPerTokenPerLayer = 0 then .error .zeroDivisionError
  else
    let totalKvPerToken := kvPerTokenPerLayer * numLayers
    if totalKvPerToken = 0 then .error .zeroDivisionError
    else
      .ok
        { kv with
          perLayerKvBytes := kvPerTokenPerLayer
          maxSramTokens := kv.sramBytes / kvPerTokenPerLayer
          maxTotalTokens := min (kv.dramRegionMb * 1024 * 1024 / totalKvPerToken) maxContext
          numLayers := numLayers }

/-- The access of a token to the keys and values of the tokens before it. -/
def access (kv : KvCacheModel) (tokenPos : ℕ) : Except Failure KvCacheResult :=
  if tokenPos = 0 then .ok { hit := true, accessCycles := 0, sramHitRate := 1 }
  else do
    let sramHits := min kv.maxSramTokens tokenPos
    let dramMisses := tokenPos - sramHits
    let kvBytesPerToken := if 0 < kv.perLayerKvBytes then kv.perLayerKvBytes else 1
    let bwCycles ← MacEngine.divide kvBytesPerToken kv.bwBytesPerCycle
    let perMissCost := ⌈bwCycles⌉.toNat + kv.randomLatencyPenaltyCycles
    .ok
      { hit := decide (dramMisses = 0)
        accessCycles := sramHits * sramAccessCycles + dramMisses * perMissCost
        sramHitRate := sramHits / tokenPos }

/-- The cycles of the accesses of a decode step. -/
def estimatePerDecode (kv : KvCacheModel) (tokenPos : ℕ) : Except Failure ℕ := do
  let result ← kv.access tokenPos
  if 0.85 ≤ result.sramHitRate then .ok (sramAccessCycles * 10)
  else .ok (truncate (result.accessCycles * (1 - result.sramHitRate) * 0.1)).toNat

/-- The cycles in which the window is loaded for another layer. -/
def layerSwitchCost (kv : KvCacheModel) : Except Failure ℕ := do
  let rawCycles ← MacEngine.divide kv.sramBytes kv.bwBytesPerCycle
  .ok (truncate (rawCycles * 0.3)).toNat

/-- Loading what is not empty takes a cycle. -/
theorem ceil_divide_pos {bytes bw cycles : ℚ} (hbytes : 0 < bytes) (hbw : 0 ≤ bw)
    (h : MacEngine.divide bytes bw = .ok cycles) : 1 ≤ ⌈cycles⌉.toNat := by
  unfold MacEngine.divide at h
  split_ifs at h with hzero
  cases h
  have hpos : 0 < bytes / bw := div_pos hbytes (hbw.lt_of_ne' hzero)
  have hceil : 0 < ⌈bytes / bw⌉ := Int.ceil_pos.mpr hpos
  omega

/-- A step with a context of at least 67 tokens takes cycles. -/
theorem estimatePerDecode_pos {kv : KvCacheModel} {tokenPos n : ℕ} (hpos : 67 ≤ tokenPos)
    (h : kv.estimatePerDecode tokenPos = .ok n) : 0 < n := by
  unfold estimatePerDecode access at h
  rw [if_neg (by omega)] at h
  obtain ⟨result, haccess, h⟩ := bind_eq_ok.mp h
  obtain ⟨bwCycles, hdivide, haccess⟩ := bind_eq_ok.mp haccess
  cases haccess
  dsimp only at h
  split_ifs at h with hrate
  · cases h
    decide
  · cases h
    have hbytes : (0 : ℚ) < ((if 0 < kv.perLayerKvBytes then kv.perLayerKvBytes else 1 : ℕ) : ℚ) := by
      split_ifs with hkv
      · exact_mod_cast hkv
      · norm_num
    have hmiss := ceil_divide_pos hbytes kv.bwBytesPerCycle_nonneg hdivide
    set hits := min kv.maxSramTokens tokenPos
    have hle : hits ≤ tokenPos := min_le_right _ _
    set access := hits * sramAccessCycles +
      (tokenPos - hits) * (⌈bwCycles⌉.toNat + kv.randomLatencyPenaltyCycles)
    -- Every token of the context takes at least a cycle.
    have haccess : tokenPos ≤ access := by
      have hmisses := Nat.mul_le_mul_left (tokenPos - hits)
        (hmiss.trans (Nat.le_add_right _ kv.randomLatencyPenaltyCycles))
      have htwo : sramAccessCycles = 2 := rfl
      change tokenPos ≤ hits * sramAccessCycles + _
      rw [htwo]
      omega
    have hcast : (67 : ℚ) ≤ access := by exact_mod_cast hpos.trans haccess
    have hmissRate : (0.15 : ℚ) < 1 - (hits : ℚ) / tokenPos := by
      rw [not_le] at hrate
      linarith
    have hone : (1 : ℚ) ≤ access * (1 - (hits : ℚ) / tokenPos) * 0.1 := by nlinarith
    unfold truncate
    rw [if_pos (zero_le_one.trans hone)]
    have hfloor : 1 ≤ Rat.floor (access * (1 - (hits : ℚ) / tokenPos) * 0.1) :=
      Int.le_floor.mpr (by exact_mod_cast hone)
    omega

end KvCacheModel

/-! ### The cost of a growing context

A decode step has a fixed cost while most tokens are in the window, and behind that a share of the
access, which grows with the context. At the position where the first cost gives way to the second
one, the share can be less. -/

/-- A function that is constant up to a position and does not decrease behind it is monotone
exactly when it does not fall there. -/
theorem monotone_iff_of_switch {f : ℕ → ℕ} {s c : ℕ} (hs : 0 < s) (hbelow : ∀ p < s, f p = c)
    (habove : ∀ p q, s ≤ p → p ≤ q → f p ≤ f q) : Monotone f ↔ c ≤ f s := by
  constructor
  · intro hmono
    rw [← hbelow 0 hs]
    exact hmono hs.le
  · intro hle p q hpq
    rcases lt_or_ge q s with hq | hq
    · rw [hbelow p (by omega), hbelow q hq]
    · rcases lt_or_ge p s with hp | hp
      · rw [hbelow p hp]
        exact hle.trans (habove s q le_rfl hq)
      · exact habove p q hp hpq

namespace KvCacheModel

/-! ### The cost in closed form -/

/-- The cycles of a decode step, with a window of some tokens and a cost for each other token. -/
def decodeCost (window missCost tokenPos : ℕ) : ℕ :=
  if 17 * tokenPos ≤ 20 * window then 20
  else (2 * window + (tokenPos - window) * missCost) * (tokenPos - window) / (10 * tokenPos)

/-- The first position at which less than 85 percent of the tokens are in the window. -/
def switchPos (window : ℕ) : ℕ := 20 * window / 17 + 1

/-- The share of the access at the switch reaches the fixed cost. -/
def SwitchCovered (window missCost : ℕ) : Prop :=
  200 * switchPos window ≤ (2 * window + (switchPos window - window) * missCost) *
    (switchPos window - window)

instance (window missCost : ℕ) : Decidable (SwitchCovered window missCost) := Nat.decLe _ _

variable {window missCost : ℕ}

theorem lt_switchPos {tokenPos : ℕ} : tokenPos < switchPos window ↔
    17 * tokenPos ≤ 20 * window := by
  rw [switchPos, Nat.lt_succ_iff, Nat.le_div_iff_mul_le (by decide), Nat.mul_comm]

/-- Behind the window a further token makes a step no cheaper. -/
theorem decodeCost_le_decodeCost {p q : ℕ} (hp : switchPos window ≤ p) (hpq : p ≤ q) :
    decodeCost window missCost p ≤ decodeCost window missCost q := by
  have hp' : ¬17 * p ≤ 20 * window := fun h => absurd (lt_switchPos.mpr h) (by omega)
  have hq' : ¬17 * q ≤ 20 * window := by omega
  obtain ⟨d, rfl⟩ : ∃ d, p = window + d := ⟨p - window, by omega⟩
  obtain ⟨e, rfl⟩ : ∃ e, q = window + e := ⟨q - window, by omega⟩
  have hde : d ≤ e := by omega
  rw [decodeCost, decodeCost, if_neg hp', if_neg hq', Nat.add_sub_cancel_left,
    Nat.add_sub_cancel_left, Nat.le_div_iff_mul_le (by omega)]
  set access := 2 * window + d * missCost
  have haccess : access ≤ 2 * window + e * missCost :=
    Nat.add_le_add_left (Nat.mul_le_mul_right _ hde) _
  have hshare : d * (window + e) ≤ e * (window + d) := by nlinarith
  have hfloor := Nat.div_mul_le_self (access * d) (10 * (window + d))
  refine Nat.le_of_mul_le_mul_right (c := window + d) ?_ (by omega)
  calc access * d / (10 * (window + d)) * (10 * (window + e)) * (window + d)
      = access * d / (10 * (window + d)) * (10 * (window + d)) * (window + e) := by ring
    _ ≤ access * d * (window + e) := Nat.mul_le_mul_right _ hfloor
    _ = access * (d * (window + e)) := Nat.mul_assoc _ _ _
    _ ≤ (2 * window + e * missCost) * (e * (window + d)) := Nat.mul_le_mul haccess hshare
    _ = (2 * window + e * missCost) * e * (window + d) := (Nat.mul_assoc _ _ _).symm

/-- The cost does not decrease exactly when it does not fall at the switch. -/
theorem monotone_decodeCost_iff :
    Monotone (decodeCost window missCost) ↔ SwitchCovered window missCost := by
  have hpos : 0 < switchPos window := Nat.succ_pos _
  have hswitch : ¬17 * switchPos window ≤ 20 * window := fun h =>
    absurd (lt_switchPos.mpr h) (lt_irrefl _)
  have hbelow : ∀ p < switchPos window, decodeCost window missCost p = 20 := fun p hp =>
    if_pos (lt_switchPos.mp hp)
  rw [monotone_iff_of_switch hpos hbelow fun p q => decodeCost_le_decodeCost, decodeCost,
    if_neg hswitch, Nat.le_div_iff_mul_le (by omega), SwitchCovered, ← Nat.mul_assoc]

/-! ### The cost of the model -/

variable {kv : KvCacheModel}

/-- The cycles of a token outside the window. -/
def missCycles (kv : KvCacheModel) : ℕ :=
  ⌈(kv.perLayerKvBytes : ℚ) / kv.bwBytesPerCycle⌉.toNat + kv.randomLatencyPenaltyCycles

/-- The tokens in the window, with a share of at least 85 percent. -/
theorem hitRate_iff {tokenPos : ℕ} (hpos : 0 < tokenPos) :
    (0.85 : ℚ) ≤ (min window tokenPos : ℕ) / tokenPos ↔ 17 * tokenPos ≤ 20 * window := by
  have hcast : (0 : ℚ) < tokenPos := by exact_mod_cast hpos
  have hnat : (0.85 : ℚ) ≤ (min window tokenPos : ℕ) / tokenPos ↔
      17 * tokenPos ≤ 20 * min window tokenPos := by
    rw [le_div_iff₀ hcast]
    constructor
    · intro h
      have hscaled : (17 : ℚ) * tokenPos ≤ 20 * (min window tokenPos : ℕ) := by linarith
      exact_mod_cast hscaled
    · intro h
      have hscaled : (17 : ℚ) * tokenPos ≤ 20 * (min window tokenPos : ℕ) := by exact_mod_cast h
      linarith
  rw [hnat]
  omega

/-- A share of an access is a quotient of naturals, rounded down. -/
theorem truncate_share {access window tokenPos : ℕ} (hpos : 0 < tokenPos)
    (hwindow : window ≤ tokenPos) :
    (truncate ((access : ℚ) * (1 - (window : ℚ) / tokenPos) * 0.1)).toNat =
      access * (tokenPos - window) / (10 * tokenPos) := by
  have hcast : (tokenPos : ℚ) ≠ 0 := by exact_mod_cast hpos.ne'
  have hquot : (access : ℚ) * (1 - (window : ℚ) / tokenPos) * 0.1 =
      ((access * (tokenPos - window) : ℕ) : ℚ) / ((10 * tokenPos : ℕ) : ℚ) := by
    push_cast [Nat.cast_sub hwindow]
    field_simp
    ring
  have hnonneg : (0 : ℚ) ≤
      ((access * (tokenPos - window) : ℕ) : ℚ) / ((10 * tokenPos : ℕ) : ℚ) := by
    positivity
  rw [hquot, truncate, if_pos hnonneg]
  have hfloor := Rat.floor_natCast_div_natCast (access * (tokenPos - window)) (10 * tokenPos)
  rw [← Int.natCast_ediv] at hfloor
  exact (congrArg Int.toNat hfloor).trans (Int.toNat_natCast _)

/-- A decode step of a configured cache with a bandwidth has the cost in closed form. -/
theorem estimatePerDecode_eq (hbw : kv.bwBytesPerCycle ≠ 0) (hkv : 0 < kv.perLayerKvBytes)
    (tokenPos : ℕ) :
    kv.estimatePerDecode tokenPos = .ok (decodeCost kv.maxSramTokens kv.missCycles tokenPos) := by
  rcases Nat.eq_zero_or_pos tokenPos with rfl | hpos
  · have haccess : kv.access 0 = .ok { hit := true, accessCycles := 0, sramHitRate := 1 } := rfl
    rw [estimatePerDecode, haccess, bind_eq_ok_left]
    dsimp only
    rw [if_pos (by norm_num), decodeCost, if_pos (Nat.zero_le _)]
    rfl
  · set hits := min kv.maxSramTokens tokenPos with hhits
    have haccess : kv.access tokenPos = .ok
        { hit := decide (tokenPos - hits = 0)
          accessCycles := hits * sramAccessCycles + (tokenPos - hits) * kv.missCycles
          sramHitRate := hits / tokenPos } := by
      unfold access MacEngine.divide
      rw [if_neg hpos.ne']
      dsimp only
      rw [if_pos hkv, if_neg hbw]
      rfl
    rw [estimatePerDecode, haccess, bind_eq_ok_left]
    dsimp only
    rw [truncate_share hpos (min_le_right _ _), decodeCost]
    by_cases hrate : 17 * tokenPos ≤ 20 * kv.maxSramTokens
    · rw [if_pos ((hitRate_iff hpos).mpr hrate), if_pos hrate]
      rfl
    · have hwindow : hits = kv.maxSramTokens := min_eq_left (by omega)
      rw [if_neg fun h => hrate ((hitRate_iff hpos).mp h), if_neg hrate, ← hhits, hwindow,
        Nat.mul_comm kv.maxSramTokens]
      rfl

/-- Without a bandwidth the first token outside the window cannot be read. -/
theorem estimatePerDecode_of_zero (hbw : kv.bwBytesPerCycle = 0) :
    kv.estimatePerDecode 1 = .error .zeroDivisionError := by
  unfold estimatePerDecode access MacEngine.divide
  rw [if_neg one_ne_zero]
  dsimp only
  rw [if_pos hbw]
  rfl

/-- The cost of a decode step exists for each position and does not decrease with it. -/
def GrowsWithContext (kv : KvCacheModel) : Prop :=
  ∃ cost : ℕ → ℕ, (∀ tokenPos, kv.estimatePerDecode tokenPos = .ok (cost tokenPos)) ∧
    Monotone cost

/-- The cost of a configured cache grows exactly when the memory has a bandwidth and the cost does
not fall at the switch. -/
theorem growsWithContext_iff (hkv : 0 < kv.perLayerKvBytes) :
    kv.GrowsWithContext ↔
      kv.bwBytesPerCycle ≠ 0 ∧ SwitchCovered kv.maxSramTokens kv.missCycles := by
  by_cases hbw : kv.bwBytesPerCycle = 0
  · refine iff_of_false ?_ fun h => h.1 hbw
    rintro ⟨cost, hcost, -⟩
    have hone := hcost 1
    rw [estimatePerDecode_of_zero hbw] at hone
    cases hone
  · rw [and_iff_right hbw, ← monotone_decodeCost_iff]
    constructor
    · rintro ⟨cost, hcost, hmono⟩
      have heq : cost = decodeCost kv.maxSramTokens kv.missCycles := funext fun p =>
        Except.ok.inj ((hcost p).symm.trans (estimatePerDecode_eq hbw hkv p))
      rwa [← heq]
    · intro hmono
      exact ⟨_, estimatePerDecode_eq hbw hkv, hmono⟩

/-- A cache is configured for a model if a token takes bytes. -/
theorem configureForModel_eq_ok {kv' : KvCacheModel}
    {numKvHeads headDim numLayers maxContext : ℕ} :
    kv.configureForModel numKvHeads headDim numLayers maxContext = .ok kv' ↔
      0 < numKvHeads * headDim * 2 * kv.elementBytes ∧ 0 < numLayers ∧
        kv' = { kv with
          perLayerKvBytes := numKvHeads * headDim * 2 * kv.elementBytes
          maxSramTokens := kv.sramBytes / (numKvHeads * headDim * 2 * kv.elementBytes)
          maxTotalTokens := min (kv.dramRegionMb * 1024 * 1024 /
            (numKvHeads * headDim * 2 * kv.elementBytes * numLayers)) maxContext
          numLayers := numLayers } := by
  unfold configureForModel
  dsimp only
  split_ifs with htoken hlayers
  · refine ⟨fun h => (by cases h), fun h => absurd htoken h.1.ne'⟩
  · refine ⟨fun h => (by cases h), fun h => absurd hlayers (Nat.mul_pos h.1 h.2.1).ne'⟩
  · rw [Except.ok.injEq, eq_comm, and_iff_right (Nat.pos_of_ne_zero htoken),
      and_iff_right (Nat.pos_of_ne_zero (right_ne_zero_of_mul hlayers))]

/-- The cost of a decode step grows with the context exactly when a value takes a byte, the model
has heads, a dimension and layers, the memory has a bandwidth for random reads, and the cost does
not fall at the switch. -/
theorem configured_growsWithContext_iff (kv : KvCacheModel)
    (numKvHeads headDim numLayers maxContext : ℕ) :
    (∃ kv', kv.configureForModel numKvHeads headDim numLayers maxContext = .ok kv' ∧
      kv'.GrowsWithContext) ↔
    0 < numKvHeads * headDim * 2 * kv.elementBytes ∧ 0 < numLayers ∧ kv.bwBytesPerCycle ≠ 0 ∧
      SwitchCovered (kv.sramBytes / (numKvHeads * headDim * 2 * kv.elementBytes))
        (⌈((numKvHeads * headDim * 2 * kv.elementBytes : ℕ) : ℚ) / kv.bwBytesPerCycle⌉.toNat +
          kv.randomLatencyPenaltyCycles) := by
  constructor
  · rintro ⟨kv', hconfigure, hgrows⟩
    obtain ⟨htoken, hlayers, rfl⟩ := configureForModel_eq_ok.mp hconfigure
    exact ⟨htoken, hlayers, (growsWithContext_iff htoken).mp hgrows⟩
  · rintro ⟨htoken, hlayers, hcovered⟩
    exact ⟨_, configureForModel_eq_ok.mpr ⟨htoken, hlayers, rfl⟩,
      (growsWithContext_iff htoken).mpr hcovered⟩

/-! ### A window smaller than a token -/

/-- A configuration with a window of a kilobyte. -/
def smallWindow : SimulatorConfig where
  mxu := some {}
  memory := {}
  sfu := { width := Nat.succPNat 63 }
  kvCache := { sramKb := 1, dramRegionMb := 96, precisionBits := 8 }

/-- A plan that places nothing. -/
def nothingPlaced : MemoryAccessPlan where
  hierarchy := { tiers := [], alignment_pos := defaultAlignment_pos }
  placements := []
  tierSummaries := []
  accessStreams := []
  totalAccessBytes := .empty
  spillBytesTotal := 0
  residentBytesTotal := 0
  digest := ""

theorem exists_smallWindow : ∃ kv, create smallWindow [] nothingPlaced = .ok kv ∧
    kv.sramBytes = 1024 ∧ kv.elementBytes = 1 ∧ kv.bwBytesPerCycle = 25.6 ∧
    kv.randomLatencyPenaltyCycles = 40 := by
  have hfreq : PosRat.orDefault smallWindow.mac.frequencyMhz 1000 = 1000 := rfl
  have hefficiency : UnitRat.orDefault smallWindow.memory.dramEfficiencyRandomBw 0.50 = 0.50 := rfl
  have hread : readBandwidth smallWindow [] nothingPlaced = .ok 51.2 := rfl
  unfold create
  dsimp only
  split
  · next err herr => cases hread.symm.trans herr
  · next readBw hreadBw =>
    obtain rfl := Except.ok.inj (hread.symm.trans hreadBw)
    split
    · next err hbw =>
      rw [bandwidthGbpsToBytesPerCycle, hfreq, if_neg (by norm_num)] at hbw
      cases hbw
    · next bw hbw =>
      obtain ⟨-, rfl⟩ := bandwidthGbpsToBytesPerCycle_eq_ok.mp hbw
      refine ⟨_, rfl, rfl, rfl, ?_, rfl⟩
      dsimp only
      rw [hfreq, hefficiency]
      norm_num

/-- The first token costs less than none: 12 cycles instead of 20. -/
theorem smallWindow_not_grows : ∃ kv, create smallWindow [] nothingPlaced = .ok kv ∧
    ¬∃ kv', kv.configureForModel 8 128 28 2048 = .ok kv' ∧ kv'.GrowsWithContext := by
  obtain ⟨kv, hcreate, hsram, helement, hbw, hpenalty⟩ := exists_smallWindow
  refine ⟨kv, hcreate, ?_⟩
  rintro ⟨kv', hconfigure, hgrows⟩
  obtain ⟨htoken, -, rfl⟩ := configureForModel_eq_ok.mp hconfigure
  obtain ⟨-, hcovered⟩ := (growsWithContext_iff htoken).mp hgrows
  change SwitchCovered (kv.sramBytes / (8 * 128 * 2 * kv.elementBytes))
    (⌈((8 * 128 * 2 * kv.elementBytes : ℕ) : ℚ) / kv.bwBytesPerCycle⌉.toNat +
      kv.randomLatencyPenaltyCycles) at hcovered
  have hceil : ⌈((8 * 128 * 2 * 1 : ℕ) : ℚ) / 25.6⌉ = 80 := by norm_num [Int.ceil_eq_iff]
  rw [hsram, helement, hbw, hpenalty, hceil] at hcovered
  exact absurd hcovered (by decide)

end KvCacheModel

end Simulator

end NpuArc
