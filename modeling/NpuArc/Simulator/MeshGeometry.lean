import NpuArc.Library.FactorPairs
import NpuArc.Simulator.Noc
import Mathlib.Data.Set.Function

/-!
# The geometry of the mesh

The search for the dimensions of a mesh goes down from the rounded square root of the number of its
nodes and always stops at a divisor, at the latest at 1. So the grid has exactly as many places as
there are nodes, and no grid of that many places is closer to a square. Numbering by rows gives each
node a place of its own, and so the hops between nodes are a metric.
-/

namespace NpuArc

namespace Simulator

namespace NocModel

/-! ### Dimensions -/

theorem le_ceilSqrt_mul_self (n : ℕ) : n ≤ ceilSqrt n * ceilSqrt n := by
  unfold ceilSqrt
  split_ifs with hsquare
  · exact hsquare.ge
  · exact (Nat.lt_succ_sqrt n).le

theorem ceilSqrt_sub_one_mul_self_lt {n : ℕ} (hn : 0 < n) :
    (ceilSqrt n - 1) * (ceilSqrt n - 1) < n := by
  have hsqrt := Nat.sqrt_le n
  have hpos : 0 < n.sqrt := Nat.sqrt_pos.mpr hn
  unfold ceilSqrt
  split_ifs with hsquare
  · exact (Nat.mul_lt_mul'' (by omega) (by omega)).trans_le hsqrt
  · rw [Nat.add_sub_cancel]
    exact lt_of_le_of_ne hsqrt hsquare

theorem ceilSqrt_pos {n : ℕ} (hn : 0 < n) : 0 < ceilSqrt n := by
  have hle := le_ceilSqrt_mul_self n
  refine Nat.pos_of_ne_zero fun h => ?_
  rw [h] at hle
  omega

/-- The search stops at the largest divisor up to its limit. -/
theorem exists_computeDims {ports : ℕ} (hports : 0 < ports) : ∃ c, 0 < c ∧ c ≤ ceilSqrt ports ∧
    ports % c = 0 ∧ (∀ d, c < d → d ≤ ceilSqrt ports → ports % d ≠ 0) ∧
    computeDims ports = (min (ports / c) c, max (ports / c) c) := by
  have hlimit := ceilSqrt_pos hports
  unfold computeDims
  dsimp only
  cases hfind : (List.range' 1 (ceilSqrt ports)).reverse.find?
      fun c => decide (ports % c = 0) with
  | none =>
    have hone := List.find?_eq_none.mp hfind 1 (by simp; omega)
    exact absurd (decide_eq_true (Nat.mod_one ports)) hone
  | some c =>
    have hdvd := List.find?_some hfind
    have hmem := List.mem_of_find?_eq_some hfind
    rw [List.mem_reverse, List.mem_range'_1] at hmem
    refine ⟨c, by omega, by omega, of_decide_eq_true hdvd, fun d hlt hle => ?_, rfl⟩
    -- What lies before the divisor in the descending list is larger than it.
    obtain ⟨-, before, after, heq, hbefore⟩ := List.find?_eq_some_iff_append.mp hfind
    have hd : d ∈ before ++ c :: after := by
      rw [← heq, List.mem_reverse, List.mem_range'_1]
      omega
    have hsorted : (before ++ c :: after).Pairwise (· > ·) := by
      rw [← heq, List.pairwise_reverse]
      exact List.pairwise_lt_range' 1 (by omega)
    rcases List.mem_append.mp hd with hd | hd
    · simpa using hbefore d hd
    · rw [List.pairwise_append, List.pairwise_cons] at hsorted
      rcases List.mem_cons.mp hd with rfl | hd
      · omega
      · exact absurd (hsorted.2.1.1 d hd) (by omega)

/-- Going through all grids with one place for each node, none is closer to a square. -/
structure ClosestToSquare (ports rows cols : ℕ) : Prop where
  exact : rows * cols = ports
  ordered : rows ≤ cols
  closest : ∀ a b, a * b = ports → a ≤ b → cols - rows ≤ b - a

theorem closestToSquare_computeDims {ports : ℕ} (hports : 0 < ports) :
    ClosestToSquare ports (computeDims ports).1 (computeDims ports).2 := by
  obtain ⟨c, hpos, hle, hdvd, hnone, hdims⟩ := exists_computeDims hports
  rw [hdims]
  exact
    { exact := min_mul_max_cofactor hdvd
      ordered := min_le_max
      closest := fun a b hab horder => closest_cofactor hports (le_ceilSqrt_mul_self ports)
        (ceilSqrt_sub_one_mul_self_lt hports) hdvd hle hnone hab horder }

/-! ### Places and hops -/

variable (noc : NocModel)

/-- The nodes lie on the grid. -/
theorem nodeCoords_lt {nodeId : ℕ} (hnode : nodeId < noc.rows * noc.cols) :
    (noc.nodeCoords nodeId).1 < noc.rows ∧ (noc.nodeCoords nodeId).2 < noc.cols := by
  have hcols : 0 < noc.cols := Nat.pos_of_ne_zero fun h => by simp [h] at hnode
  exact ⟨Nat.div_lt_of_lt_mul (by rwa [Nat.mul_comm]), Nat.mod_lt _ hcols⟩

/-- The row and the column of a node determine it. -/
theorem nodeCoords_injective : Function.Injective noc.nodeCoords := by
  intro a b hab
  obtain ⟨hrow, hcol⟩ := Prod.mk.inj hab
  rw [← Nat.div_add_mod a noc.cols, ← Nat.div_add_mod b noc.cols, hrow, hcol]

theorem meshHops_eq_zero_iff (a b : ℕ) : noc.meshHops a b = 0 ↔ a = b := by
  have hplace : noc.nodeCoords a = noc.nodeCoords b ↔ a = b := noc.nodeCoords_injective.eq_iff
  rw [← hplace, Prod.ext_iff]
  unfold meshHops
  dsimp only
  omega

theorem meshHops_comm (a b : ℕ) : noc.meshHops a b = noc.meshHops b a := by
  unfold meshHops
  dsimp only
  omega

theorem meshHops_triangle (a b c : ℕ) :
    noc.meshHops a c ≤ noc.meshHops a b + noc.meshHops b c := by
  unfold meshHops
  dsimp only
  omega

/-- The grid of a network: it has a place for each node and no other, no such grid is closer to a
square, each node has a place of its own, and the hops between the nodes are a metric. -/
structure MeshGeometry (noc : NocModel) : Prop where
  dims : ClosestToSquare noc.ports noc.rows noc.cols
  on_grid : ∀ nodeId < (noc.ports : ℕ),
    (noc.nodeCoords nodeId).1 < noc.rows ∧ (noc.nodeCoords nodeId).2 < noc.cols
  own_place : Set.InjOn noc.nodeCoords {nodeId | nodeId < (noc.ports : ℕ)}
  hops_eq_zero_iff : ∀ a < (noc.ports : ℕ), ∀ b < (noc.ports : ℕ), noc.meshHops a b = 0 ↔ a = b
  hops_comm : ∀ a < (noc.ports : ℕ), ∀ b < (noc.ports : ℕ), noc.meshHops a b = noc.meshHops b a
  hops_triangle : ∀ a < (noc.ports : ℕ), ∀ b < (noc.ports : ℕ), ∀ c < (noc.ports : ℕ),
    noc.meshHops a c ≤ noc.meshHops a b + noc.meshHops b c

/-- The mesh of every configuration has this geometry. -/
theorem meshGeometry_create (c : SimulatorConfig) : MeshGeometry (create c) := by
  have hdims : ClosestToSquare (create c).ports (create c).rows (create c).cols :=
    closestToSquare_computeDims (create c).ports.pos
  exact
    { dims := hdims
      on_grid := fun nodeId hnode => (create c).nodeCoords_lt (hdims.exact.symm ▸ hnode)
      own_place := (create c).nodeCoords_injective.injOn
      hops_eq_zero_iff := fun a _ b _ => (create c).meshHops_eq_zero_iff a b
      hops_comm := fun a _ b _ => (create c).meshHops_comm a b
      hops_triangle := fun a _ b _ d _ => (create c).meshHops_triangle a b d }

/-- Twelve nodes form three rows of four. -/
example : computeDims 12 = (3, 4) := by decide +kernel

end NocModel

end Simulator

end NpuArc
