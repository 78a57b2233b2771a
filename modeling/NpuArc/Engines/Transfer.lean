import NpuArc.Engines.MacEngine
import Mathlib.Tactic.FieldSimp

/-!
# The costs of transfers

A transfer takes its bytes over the bandwidth for weights. Without bandwidth, transfers are free,
except for weights that do not fit in their buffer: their load divides by the bandwidth.
-/

namespace NpuArc

namespace Engines

namespace MacEngine

variable (e : MacEngine) (b b' : ℕ)

theorem peakMacsPerCycle_pos : 0 < e.peakMacsPerCycle :=
  Nat.mul_pos (Nat.mul_pos e.height_pos e.width_pos) e.opsPerMac_pos

theorem pipelineCycles_eq (tiles : ℕ) (compute dma : ℚ) :
    pipelineCycles tiles compute dma = pipelined tiles compute dma := by
  unfold pipelineCycles pipelined
  dsimp only
  split_ifs with h
  · rw [Nat.cast_pred (by omega)]
  · rw [Nat.sub_eq_zero_of_le (by omega), Nat.cast_zero, zero_mul, add_zero]

/-! ### Tiles -/

theorem totalTiles_pos {k n : ℕ} (hk : 0 < k) (hn : 0 < n) : 0 < e.totalTiles k n :=
  Nat.mul_pos (ceilDiv_pos hk e.height_pos) (ceilDiv_pos hn e.width_pos)

/-- The tiles cover the weights. -/
theorem mul_le_totalTiles (k n : ℕ) : k * n ≤ e.height * e.width * e.totalTiles k n :=
  mul_le_mul_ceilDiv_mul e.height_pos e.width_pos

/-- Tiles whose cycles are at least their rows take at least the ideal cycles. -/
theorem idealCycles_le_mul {rows weights compute tiles : ℕ} (hrows : rows ≤ compute)
    (htiles : weights ≤ e.height * e.width * tiles) :
    e.idealCycles (rows * weights) ≤ compute * tiles := by
  refine (ceilDiv_le_iff_le_mul e.peakMacsPerCycle_pos).mpr ?_
  calc rows * weights ≤ compute * (e.height * e.width * tiles) := Nat.mul_le_mul hrows htiles
    _ ≤ compute * (e.peakMacsPerCycle * tiles) :=
        Nat.mul_le_mul_left _
          (Nat.mul_le_mul_right _ (Nat.le_mul_of_pos_right _ e.opsPerMac_pos))
    _ = e.peakMacsPerCycle * (compute * tiles) := Nat.mul_left_comm _ _ _

/-- Whole cycles are at least the multiply-accumulates over the peak when they are at least the
ideal cycles. -/
theorem div_peak_le_iff {macs : ℕ} {cycles : ℤ} (h : 0 ≤ cycles) :
    (macs : ℚ) / e.peakMacsPerCycle ≤ cycles ↔ (e.idealCycles macs : ℤ) ≤ cycles := by
  obtain ⟨t, rfl⟩ := Int.eq_ofNat_of_zero_le h
  have hpeak : (0 : ℚ) < e.peakMacsPerCycle := by exact_mod_cast e.peakMacsPerCycle_pos
  rw [Int.cast_natCast, div_le_iff₀' hpeak, Nat.cast_le, idealCycles,
    ceilDiv_le_iff_le_mul e.peakMacsPerCycle_pos, ← Nat.cast_mul, Nat.cast_le]

/-- The utilization is a share if the cycles are at least the ideal ones. -/
theorem utilizationOf_mem {ideal : ℕ} {cycles : ℚ} (h : (ideal : ℚ) ≤ cycles) :
    0 ≤ utilizationOf ideal cycles ∧ utilizationOf ideal cycles ≤ 1 := by
  unfold utilizationOf
  split_ifs with hpos
  · exact ⟨div_nonneg (Nat.cast_nonneg _) hpos.le, (div_le_one hpos).mpr h⟩
  · exact ⟨le_rfl, zero_le_one⟩

theorem rawCycles_nonneg {bw : ℚ} : 0 ≤ rawCycles b bw := by
  unfold rawCycles
  split_ifs with h
  · exact Int.ceil_nonneg (div_nonneg (Nat.cast_nonneg _) h.le)
  · exact le_rfl

/-- Cycles that tiles cover: the computation of all tiles and one transfer, or the transfers of
all tiles and one computation. -/
def Covers (tiles compute : ℕ) (dma : ℚ) (cycles : ℤ) : Prop :=
  cycles ≤ (tiles : ℤ) * compute + ⌊dma⌋ ∨ cycles ≤ compute + ⌊tiles * dma⌋

theorem le_floor_pipelined_iff {tiles compute : ℕ} {dma : ℚ} {cycles : ℤ} (h : 0 < tiles) :
    cycles ≤ ⌊pipelined tiles (compute : ℚ) dma⌋ ↔ Covers tiles compute dma cycles := by
  rw [floor_pipelined h, le_max_iff]
  rfl

/-! ### Sequential transfers -/

/-- Without bandwidth, a division by it is zero as well. -/
theorem seqCycles_eq : e.seqCycles b = b / e.effBwWeight := by
  unfold seqCycles dmaCycles
  dsimp only
  split_ifs with hzero hbw
  · rw [hzero, Nat.cast_zero, zero_div]
  · rfl
  · have hbw0 : e.effBwWeight = 0 := le_antisymm (not_lt.mp hbw) e.effBwWeight_nonneg
    rw [hbw0, div_zero]

theorem seqCycles_nonneg : 0 ≤ e.seqCycles b := by
  rw [seqCycles_eq]
  exact div_nonneg (Nat.cast_nonneg _) e.effBwWeight_nonneg

theorem seqCycles_add : e.seqCycles (b + b') = e.seqCycles b + e.seqCycles b' := by
  rw [seqCycles_eq, seqCycles_eq, seqCycles_eq, Nat.cast_add, add_div]

theorem seqCycles_mul : e.seqCycles (b * b') = b * e.seqCycles b' := by
  rw [seqCycles_eq, seqCycles_eq, Nat.cast_mul, mul_div_assoc]

/-! ### Loads of weights -/

/-- The weights fit in their buffer. -/
def Cached : Prop := 0 < b ∧ b ≤ e.wbufKb * 1024

instance : Decidable (e.Cached b) := inferInstanceAs (Decidable (_ ∧ _))

/-- The load does not divide by zero. -/
def LoadAnswers : Prop := e.Cached b ∨ 0 < e.effBwWeight

instance : Decidable (e.LoadAnswers b) := inferInstanceAs (Decidable (_ ∨ _))

/-- The efficiency of a read with a ratio of the buffer to the weights. -/
def readEff (ratio : ℚ) : ℚ := 0.55 + 0.40 * ratio / (0.3 + ratio)

theorem le_readEff {ratio : ℚ} (h : 0 ≤ ratio) : 0.55 ≤ readEff ratio := by
  unfold readEff
  have hquot : 0 ≤ 0.40 * ratio / (0.3 + ratio) := by positivity
  linarith

theorem readEff_le {ratio : ℚ} (h : 0 ≤ ratio) : readEff ratio ≤ 0.95 := by
  unfold readEff
  have hquot : 0.40 * ratio / (0.3 + ratio) ≤ 0.40 := by
    rw [div_le_iff₀ (by positivity)]
    linarith
  linarith

theorem readEff_mono {ratio ratio' : ℚ} (h : 0 ≤ ratio) (hle : ratio ≤ ratio') :
    readEff ratio ≤ readEff ratio' := by
  unfold readEff
  have hquot : 0.40 * ratio / (0.3 + ratio) ≤ 0.40 * ratio' / (0.3 + ratio') := by
    rw [div_le_div_iff₀ (by linarith) (by linarith)]
    linarith
  linarith

variable {b b'}

theorem dramEffForBytes_of_cached (h : e.Cached b) : e.dramEffForBytes b = 0 := by
  have hle : (b : ℚ) / (1024 * 1024) ≤ (e.wbufKb : ℚ) / 1024 := by
    rw [div_le_div_iff₀ (by norm_num) (by norm_num)]
    have hcast : (b : ℚ) ≤ e.wbufKb * 1024 := by exact_mod_cast h.2
    linarith
  unfold dramEffForBytes
  dsimp only
  rw [if_neg h.1.ne', if_pos hle]

/-- The ratio of the buffer to weights. -/
theorem dramEffForBytes_of_not_cached (hpos : 0 < b) (h : ¬ e.Cached b) :
    e.dramEffForBytes b = readEff (e.wbufKb * 1024 / b) := by
  have hlt : ¬ (b : ℚ) / (1024 * 1024) ≤ (e.wbufKb : ℚ) / 1024 := by
    rw [div_le_div_iff₀ (by norm_num) (by norm_num)]
    intro hle
    refine h ⟨hpos, ?_⟩
    have hcast : (b : ℚ) ≤ e.wbufKb * 1024 := by linarith
    exact_mod_cast hcast
  have hb : (b : ℚ) ≠ 0 := by exact_mod_cast hpos.ne'
  have hratio : (e.wbufKb : ℚ) / 1024 / (b / (1024 * 1024)) = e.wbufKb * 1024 / b := by
    field_simp
  unfold dramEffForBytes readEff
  dsimp only
  rw [if_neg hpos.ne', if_neg hlt, hratio]

theorem dramEffForBytes_zero : e.dramEffForBytes 0 = 1 := by
  rw [dramEffForBytes, if_pos rfl]

theorem not_cached_zero : ¬ e.Cached 0 := fun h => lt_irrefl 0 h.1

/-- The efficiency of weights that are not cached. -/
theorem dramEffForBytes_pos (h : ¬ e.Cached b) : 0 < e.dramEffForBytes b := by
  rcases Nat.eq_zero_or_pos b with rfl | hpos
  · rw [dramEffForBytes_zero]
    exact one_pos
  · rw [e.dramEffForBytes_of_not_cached hpos h]
    have hratio : (0 : ℚ) ≤ e.wbufKb * 1024 / b := by positivity
    exact lt_of_lt_of_le (by norm_num) (le_readEff hratio)

theorem dramEffForBytes_le_one (h : ¬ e.Cached b) : e.dramEffForBytes b ≤ 1 := by
  rcases Nat.eq_zero_or_pos b with rfl | hpos
  · rw [dramEffForBytes_zero]
  · rw [e.dramEffForBytes_of_not_cached hpos h]
    have hratio : (0 : ℚ) ≤ e.wbufKb * 1024 / b := by positivity
    exact (readEff_le hratio).trans (by norm_num)

variable (b)

/-- The cycles of a load. -/
def loadCycles : ℚ :=
  if e.Cached b then 0 else b / (e.effBwWeight * e.dramEffForBytes b)

variable {b}

theorem weightDmaCycles_of_answers (h : e.LoadAnswers b) :
    e.weightDmaCycles b = .ok (e.loadCycles b) := by
  unfold weightDmaCycles loadCycles
  dsimp only
  by_cases hcached : e.Cached b
  · rw [if_pos (e.dramEffForBytes_of_cached hcached).le, if_pos hcached]
  · have heff := e.dramEffForBytes_pos hcached
    have hbw : 0 < e.effBwWeight := h.resolve_left hcached
    rw [if_neg (not_le.mpr heff), if_neg hcached, divide, if_neg (mul_pos hbw heff).ne']

/-- A load divides by zero when its weights are not cached and there is no bandwidth. -/
theorem weightDmaCycles_of_not_answers (h : ¬ e.LoadAnswers b) :
    e.weightDmaCycles b = .error .zeroDivisionError := by
  obtain ⟨hcached, hbw⟩ := not_or.mp h
  have hbw0 : e.effBwWeight = 0 := le_antisymm (not_lt.mp hbw) e.effBwWeight_nonneg
  unfold weightDmaCycles
  dsimp only
  rw [if_neg (not_le.mpr (e.dramEffForBytes_pos hcached)), divide, if_pos (by rw [hbw0, zero_mul])]

variable (b)

theorem loadCycles_nonneg : 0 ≤ e.loadCycles b := by
  unfold loadCycles
  split_ifs with h
  · exact le_rfl
  · exact div_nonneg (Nat.cast_nonneg _)
      (mul_nonneg e.effBwWeight_nonneg (e.dramEffForBytes_pos h).le)

/-- A load of weights that are not cached takes at least as long as a sequential transfer. -/
theorem seqCycles_le_loadCycles (h : ¬ e.Cached b) : e.seqCycles b ≤ e.loadCycles b := by
  rw [seqCycles_eq, loadCycles, if_neg h]
  rcases e.effBwWeight_nonneg.eq_or_lt with hbw | hbw
  · rw [← hbw, zero_mul, div_zero]
  · refine div_le_div_of_nonneg_left (Nat.cast_nonneg _)
      (mul_pos hbw (e.dramEffForBytes_pos h)) ?_
    exact mul_le_of_le_one_right hbw.le (e.dramEffForBytes_le_one h)

/-- A load takes at most as long as twice its bytes in a sequential transfer. -/
theorem loadCycles_le_seqCycles : e.loadCycles b ≤ e.seqCycles (2 * b) := by
  rw [seqCycles_eq, loadCycles]
  split_ifs with hcached
  · exact div_nonneg (Nat.cast_nonneg _) e.effBwWeight_nonneg
  · rcases Nat.eq_zero_or_pos b with rfl | hpos
    · rw [Nat.cast_zero, zero_div]
      exact div_nonneg (Nat.cast_nonneg _) e.effBwWeight_nonneg
    · have hratio : (0 : ℚ) ≤ e.wbufKb * 1024 / b := by positivity
      have heff : (1 / 2 : ℚ) ≤ e.dramEffForBytes b := by
        rw [e.dramEffForBytes_of_not_cached hpos hcached]
        exact le_trans (by norm_num) (le_readEff hratio)
      have hquot : (b : ℚ) / e.dramEffForBytes b ≤ (2 * b : ℕ) := by
        rw [div_le_iff₀ (by linarith)]
        push_cast
        have hmul := mul_le_mul_of_nonneg_left heff (Nat.cast_nonneg (α := ℚ) b)
        linarith
      rw [mul_comm, ← div_div]
      exact div_le_div_of_nonneg_right hquot e.effBwWeight_nonneg

/-! ### Faster memory -/

/-- The same array with at least the bandwidth and the buffers. -/
structure Faster (e e' : MacEngine) : Prop where
  height : e'.height = e.height
  width : e'.width = e.width
  wBits : e'.wBits = e.wBits
  aBits : e'.aBits = e.aBits
  opsPerMac : e'.opsPerMac = e.opsPerMac
  bwRaw : e.bwRaw ≤ e'.bwRaw
  effBwWeight : e.effBwWeight ≤ e'.effBwWeight
  effBwWeight_pos : 0 < e'.effBwWeight → 0 < e.effBwWeight
  wbufKb : e.wbufKb ≤ e'.wbufKb

theorem Faster.refl : e.Faster e :=
  ⟨rfl, rfl, rfl, rfl, rfl, le_rfl, le_rfl, id, le_rfl⟩

variable {e b} {e' : MacEngine}

theorem Faster.peakMacsPerCycle (h : e.Faster e') :
    e'.peakMacsPerCycle = e.peakMacsPerCycle := by
  rw [MacEngine.peakMacsPerCycle, MacEngine.peakMacsPerCycle, h.height, h.width, h.opsPerMac]

/-- Fewer bytes at more bandwidth take less time. -/
theorem Faster.seqCycles_le (h : e.Faster e') (hb : b' ≤ b) :
    e'.seqCycles b' ≤ e.seqCycles b := by
  rw [seqCycles_eq, seqCycles_eq]
  rcases e'.effBwWeight_nonneg.eq_or_lt with hbw | hbw
  · rw [← hbw, div_zero]
    exact div_nonneg (Nat.cast_nonneg _) e.effBwWeight_nonneg
  · exact div_le_div₀ (Nat.cast_nonneg _) (by exact_mod_cast hb) (h.effBwWeight_pos hbw)
      h.effBwWeight

/-- Weights that are cached stay cached in a larger buffer, and so do fewer of them. -/
theorem Faster.cached (h : e.Faster e') (hpos : 0 < b') (hb : b' ≤ b) (hcached : e.Cached b) :
    e'.Cached b' :=
  ⟨hpos, hb.trans (hcached.2.trans (Nat.mul_le_mul_right 1024 h.wbufKb))⟩

/-- The efficiency of fewer weights with a larger buffer. -/
theorem Faster.dramEffForBytes_le (h : e.Faster e') (hb : b' ≤ b) (hcached : ¬ e.Cached b)
    (hcached' : ¬ e'.Cached b') : e.dramEffForBytes b ≤ e'.dramEffForBytes b' := by
  rcases Nat.eq_zero_or_pos b' with rfl | hpos
  · rw [dramEffForBytes_zero]
    exact e.dramEffForBytes_le_one hcached
  · rw [e.dramEffForBytes_of_not_cached (hpos.trans_le hb) hcached,
      e'.dramEffForBytes_of_not_cached hpos hcached']
    have hpos' : (0 : ℚ) < b' := by exact_mod_cast hpos
    have hbuf : (e.wbufKb : ℚ) * 1024 ≤ e'.wbufKb * 1024 := by
      have hcast : (e.wbufKb : ℚ) ≤ e'.wbufKb := by exact_mod_cast h.wbufKb
      linarith
    refine readEff_mono (by positivity) ?_
    exact div_le_div₀ (by positivity) hbuf hpos' (by exact_mod_cast hb)

/-- A load of fewer weights at more bandwidth through a larger buffer takes less time. -/
theorem Faster.loadCycles_le (h : e.Faster e') (hb : b' ≤ b) (hanswers : e.LoadAnswers b) :
    e'.loadCycles b' ≤ e.loadCycles b := by
  by_cases hcached' : e'.Cached b'
  · rw [loadCycles, if_pos hcached']
    exact e.loadCycles_nonneg b
  by_cases hcached : e.Cached b
  · have hzero : b' = 0 := by
      by_contra hne
      exact hcached' (h.cached (Nat.pos_of_ne_zero hne) hb hcached)
    rw [hzero, loadCycles, if_neg e'.not_cached_zero, Nat.cast_zero, zero_div]
    exact e.loadCycles_nonneg b
  · have hbw : 0 < e.effBwWeight := hanswers.resolve_left hcached
    rw [loadCycles, loadCycles, if_neg hcached, if_neg hcached']
    refine div_le_div₀ (Nat.cast_nonneg _) (by exact_mod_cast hb)
      (mul_pos hbw (e.dramEffForBytes_pos hcached)) ?_
    exact mul_le_mul h.effBwWeight (h.dramEffForBytes_le hb hcached hcached')
      (e.dramEffForBytes_pos hcached).le e'.effBwWeight_nonneg

end MacEngine

end Engines

end NpuArc
