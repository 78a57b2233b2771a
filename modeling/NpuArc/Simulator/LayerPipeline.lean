import NpuArc.Contracts.Errors
import NpuArc.Library.Maxima
import NpuArc.Simulator.MultiCore
import Mathlib.Algebra.BigOperators.Ring.List
import Mathlib.Data.List.GetD

/-!
# The assignment of layers to cores

The pipeline goes around the cores in the order of the layers and never looks at the assignment but
to count the layers. It counts a transfer for each layer, also behind the last one.
-/

namespace NpuArc

namespace Simulator

open Engines

namespace Charge

/-- Whether a charge is the work of a layer. -/
def isWork (layer : ℕ) : Charge → Bool
  | .work _ l _ => decide (l = layer)
  | .transfer _ _ _ => false

/-- Whether a charge is the transfer behind a layer. -/
def isTransfer (layer : ℕ) : Charge → Bool
  | .work _ _ _ => false
  | .transfer _ l _ => decide (l = layer)

/-- The picoseconds of a transfer. -/
def transferPs : Charge → ℕ
  | .work _ _ _ => 0
  | .transfer _ _ ps => ps

/-- The picoseconds that are charged to a core. -/
def psOn (core : ℕ) : Charge → ℕ
  | .work c _ ps => if c = core then ps else 0
  | .transfer c _ ps => if c = core then ps else 0

end Charge

namespace MultiCoreTimeline

/-- A core is responsible for a layer. -/
def Owns (layerAssignments : List (List ℕ)) (core layer : ℕ) : Prop :=
  ∃ layers, layerAssignments[core]? = some layers ∧ layer ∈ layers

/-- Each layer is assigned to one of the cores. -/
structure IsPartition (numCores numLayers : ℕ) (layerAssignments : List (List ℕ)) : Prop where
  cores : layerAssignments.length = numCores
  layers : layerAssignments.flatten.Perm (List.range numLayers)

/-- A layer and the next one are on different cores. -/
def Crosses (layerAssignments : List (List ℕ)) (layer : ℕ) : Prop :=
  ∃ core core', Owns layerAssignments core layer ∧ Owns layerAssignments core' (layer + 1) ∧
    core ≠ core'

/-- A pipeline respects an assignment: each layer is charged once and to its own core, a transfer is
charged once behind each layer whose successor is on another core, the reported overhead is that of
the transfers, and the total covers the layers of each core. -/
structure Respects (m : MultiCoreTimeline) (layerAssignments : List (List ℕ))
    (perLayerCycles : List ℕ) (activationSize : ℕ) (r : PipelineResult) : Prop where
  work : ∀ core layer, Owns layerAssignments core layer →
    r.charges.filter (Charge.isWork layer) =
      [.work core layer (cyclesToPs m.frequencyMhz (perLayerCycles.getD layer 0))]
  crossing : ∀ layer, Crosses layerAssignments layer → ∃ core ps, Owns layerAssignments core layer ∧
    m.fifoTransferPs activationSize 2 m.frequencyMhz = .ok ps ∧
    r.charges.filter (Charge.isTransfer layer) = [.transfer core layer ps]
  staying : ∀ layer, ¬Crosses layerAssignments layer →
    r.charges.filter (Charge.isTransfer layer) = []
  overhead : cyclesToPs m.frequencyMhz r.fifoOverhead = (r.charges.map Charge.transferPs).sum
  total : ∀ layers ∈ layerAssignments,
    (layers.map fun layer => perLayerCycles.getD layer 0).sum ≤ r.totalCycles

/-! ### The loop -/

variable {m : MultiCoreTimeline} {numLayers activationSize transfer : ℕ} {perLayerCycles : List ℕ}

/-- What the loop charges for a layer. -/
def charged (m : MultiCoreTimeline) (numLayers transfer : ℕ) (perLayerCycles : List ℕ)
    (layer : ℕ) : List Charge :=
  .work (layer % m.numCores) layer (cyclesToPs m.frequencyMhz (perLayerCycles.getD layer 1000)) ::
    if (layer + 1) % m.numCores ≠ layer % m.numCores ∧ layer + 1 < numLayers then
      [.transfer (layer % m.numCores) layer (cyclesToPs m.frequencyMhz transfer)]
    else []

/-- The progress of each core covers what is charged to it. -/
def Covers (numCores : ℕ) (st : PipelineState) : Prop :=
  st.coreProgress.length = numCores ∧
    ∀ core < numCores, (st.charges.map (Charge.psOn core)).sum ≤ st.coreProgress.getD core 0

/-- Adding to the progress of a core covers a charge to it. -/
theorem Covers.modify {numCores core : ℕ} {st st' : PipelineState} (h : Covers numCores st)
    {f : ℕ → ℕ} {charge : Charge} {ps : ℕ} (hf : ∀ progress, progress + ps ≤ f progress)
    (hpsOn : ∀ c, charge.psOn c = if core = c then ps else 0)
    (hprogress : st'.coreProgress = st.coreProgress.modify core f)
    (hcharges : st'.charges = st.charges ++ [charge]) : Covers numCores st' := by
  obtain ⟨hlength, hcovers⟩ := h
  refine ⟨by rw [hprogress, List.length_modify, hlength], fun c hc => ?_⟩
  have hget : st'.coreProgress.getD c 0 =
      if core = c then f (st.coreProgress.getD c 0) else st.coreProgress.getD c 0 := by
    rw [hprogress, List.getD_eq_getElem?_getD, List.getD_eq_getElem?_getD, List.getElem?_modify,
      List.getElem?_eq_getElem (by omega)]
    split_ifs <;> rfl
  rw [hcharges, List.map_append, List.sum_append, List.map_singleton, List.sum_singleton, hpsOn,
    hget]
  have hold := hcovers c hc
  split_ifs
  · exact (Nat.add_le_add_right hold ps).trans (hf _)
  · exact hold

theorem fifoTransferPs_eq_ok (htransfer : m.fifoTransferCycles activationSize = .ok transfer)
    (frequencyMhz : ℕ+) : m.fifoTransferPs activationSize 2 frequencyMhz =
      .ok (cyclesToPs frequencyMhz transfer) := by
  rw [fifoTransferPs, htransfer]
  rfl

/-- A step charges its layer, and the progress of the cores covers it. -/
theorem pipelineStep_spec (hcores : m.numCores ≠ 0)
    (htransfer : m.fifoTransferCycles activationSize = .ok transfer) {st : PipelineState}
    (hst : Covers m.numCores st) (layer : ℕ) :
    ∃ st', m.pipelineStep numLayers perLayerCycles activationSize st layer = .ok st' ∧
      st'.charges = st.charges ++ charged m numLayers transfer perLayerCycles layer ∧
      Covers m.numCores st' := by
  rw [pipelineStep, if_neg hcores, charged]
  dsimp only
  rw [fifoTransferPs_eq_ok htransfer]
  generalize cyclesToPs m.frequencyMhz (perLayerCycles.getD layer 1000) = w
  generalize cyclesToPs m.frequencyMhz transfer = t
  have hworked : Covers m.numCores { st with
      coreProgress := st.coreProgress.modify (layer % m.numCores) fun p => max p st.nowPs + w
      nowPs := maxProgress (st.coreProgress.modify (layer % m.numCores) fun p =>
        max p st.nowPs + w)
      charges := st.charges ++ [.work (layer % m.numCores) layer w] } :=
    hst.modify (fun p => Nat.add_le_add_right (le_max_left p st.nowPs) w) (fun _ => rfl) rfl rfl
  split_ifs with hcross
  · refine ⟨_, rfl, ?_, ?_⟩
    · exact List.append_assoc _ _ _
    · exact hworked.modify (fun p => le_refl (p + t)) (fun _ => rfl) rfl rfl
  · exact ⟨_, rfl, rfl, hworked⟩

/-- The loop charges its layers one behind the other. -/
theorem foldlM_pipelineStep (hcores : m.numCores ≠ 0)
    (htransfer : m.fifoTransferCycles activationSize = .ok transfer) (n : ℕ) :
    ∃ st, (List.range n).foldlM (m.pipelineStep numLayers perLayerCycles activationSize)
        { coreProgress := List.replicate m.numCores 0 } = .ok st ∧
      st.charges = (List.range n).flatMap (charged m numLayers transfer perLayerCycles) ∧
      Covers m.numCores st := by
  induction n with
  | zero =>
    refine ⟨_, rfl, rfl, List.length_replicate, fun core hcore => ?_⟩
    exact Nat.zero_le _
  | succ n ih =>
    obtain ⟨st, hrun, hcharges, hcovers⟩ := ih
    obtain ⟨st', hstep, hcharges', hcovers'⟩ := pipelineStep_spec hcores htransfer hcovers n
    refine ⟨st', ?_, ?_, hcovers'⟩
    · rw [List.range_succ, List.foldlM_append, hrun, bind_eq_ok_left, List.foldlM_cons, hstep]
      rfl
    · rw [hcharges', hcharges, List.range_succ, List.flatMap_append, List.flatMap_singleton]

/-! ### The charges of a run -/

/-- One value of a range is kept once. -/
private theorem flatMap_range_ite {α : Type} (f : ℕ → List α) (n a : ℕ) :
    ((List.range n).flatMap fun i => if i = a then f i else []) = if a < n then f a else [] := by
  induction n with
  | zero => rfl
  | succ n ih =>
    rw [List.range_succ, List.flatMap_append, ih, List.flatMap_singleton]
    by_cases hn : n = a
    · subst hn
      simp
    · rw [if_neg hn, List.append_nil]
      by_cases ha : a < n
      · rw [if_pos ha, if_pos (by omega)]
      · rw [if_neg ha, if_neg (by omega)]

/-- Each layer is charged once, to the core whose turn it is. -/
theorem filter_isWork (n layer : ℕ) :
    ((List.range n).flatMap (charged m numLayers transfer perLayerCycles)).filter
        (Charge.isWork layer) =
      if layer < n then
        [.work (layer % m.numCores) layer
          (cyclesToPs m.frequencyMhz (perLayerCycles.getD layer 1000))]
      else [] := by
  have hone : ∀ i, (charged m numLayers transfer perLayerCycles i).filter (Charge.isWork layer) =
      if i = layer then
        [.work (i % m.numCores) i (cyclesToPs m.frequencyMhz (perLayerCycles.getD i 1000))]
      else [] := by
    intro i
    rw [charged]
    generalize cyclesToPs m.frequencyMhz (perLayerCycles.getD i 1000) = w
    generalize cyclesToPs m.frequencyMhz transfer = t
    by_cases hi : i = layer <;> split_ifs <;> simp [Charge.isWork, hi]
  rw [List.filter_flatMap]
  simp only [hone]
  exact flatMap_range_ite _ n layer

/-- A transfer is charged once behind each layer whose successor is on the next of several
cores. -/
theorem filter_isTransfer (n layer : ℕ) :
    ((List.range n).flatMap (charged m n transfer perLayerCycles)).filter
        (Charge.isTransfer layer) =
      if (layer + 1) % m.numCores ≠ layer % m.numCores ∧ layer + 1 < n then
        [.transfer (layer % m.numCores) layer (cyclesToPs m.frequencyMhz transfer)]
      else [] := by
  have hone : ∀ i, (charged m n transfer perLayerCycles i).filter (Charge.isTransfer layer) =
      if i = layer then
        if (i + 1) % m.numCores ≠ i % m.numCores ∧ i + 1 < n then
          [.transfer (i % m.numCores) i (cyclesToPs m.frequencyMhz transfer)]
        else []
      else [] := by
    intro i
    rw [charged]
    generalize cyclesToPs m.frequencyMhz (perLayerCycles.getD i 1000) = w
    generalize cyclesToPs m.frequencyMhz transfer = t
    by_cases hi : i = layer <;> split_ifs <;> simp [Charge.isTransfer, hi]
  rw [List.filter_flatMap]
  simp only [hone]
  rw [flatMap_range_ite]
  by_cases hlayer : layer < n
  · rw [if_pos hlayer]
  · rw [if_neg hlayer, if_neg (by omega)]

private theorem sum_map_flatMap {α β : Type} (f : α → List β) (g : β → ℕ) (l : List α) :
    ((l.flatMap f).map g).sum = (l.map fun a => ((f a).map g).sum).sum := by
  induction l with
  | nil => rfl
  | cons a l ih => rw [List.flatMap_cons, List.map_append, List.sum_append, ih]; rfl

/-- There is a transfer behind each layer but the last one at most. -/
theorem sum_transferPs_le (m : MultiCoreTimeline) (transfer : ℕ) (perLayerCycles : List ℕ)
    (n : ℕ) :
    (((List.range n).flatMap (charged m n transfer perLayerCycles)).map Charge.transferPs).sum ≤
      (n - 1) * cyclesToPs m.frequencyMhz transfer := by
  have hcharged : ∀ i w t : ℕ, ((Charge.work (i % m.numCores) i w ::
      if (i + 1) % m.numCores ≠ i % m.numCores ∧ i + 1 < n then
        [Charge.transfer (i % m.numCores) i t] else []).map Charge.transferPs).sum ≤
      if i + 1 < n then t else 0 := by
    intro i w t
    split_ifs with hcross hlast
    · simp [Charge.transferPs]
    · exact absurd hcross.2 hlast
    · exact Nat.zero_le t
    · simp [Charge.transferPs]
  have hone : ∀ i, ((charged m n transfer perLayerCycles i).map Charge.transferPs).sum ≤
      if i + 1 < n then cyclesToPs m.frequencyMhz transfer else 0 :=
    fun i => hcharged i _ _
  rw [sum_map_flatMap]
  generalize cyclesToPs m.frequencyMhz transfer = t at hone ⊢
  cases n with
  | zero => exact Nat.zero_le _
  | succ n =>
    have hlast := hone n
    rw [if_neg (lt_irrefl (n + 1))] at hlast
    have hothers : ((List.range n).map fun i =>
        ((charged m (n + 1) transfer perLayerCycles i).map Charge.transferPs).sum).sum ≤
        n * t := by
      refine (List.sum_le_card_nsmul _ t ?_).trans ?_
      · intro x hx
        obtain ⟨i, -, rfl⟩ := List.mem_map.mp hx
        exact (hone i).trans (by split_ifs <;> omega)
      · rw [List.length_map, List.length_range, smul_eq_mul]
    rw [List.range_succ, List.map_append, List.sum_append, List.map_singleton, List.sum_singleton,
      Nat.add_sub_cancel]
    omega

/-- The work of the layers on a core is charged to it. -/
theorem sum_work_le (m : MultiCoreTimeline) (numLayers transfer : ℕ) (perLayerCycles : List ℕ)
    (n core : ℕ) :
    ((List.range n).map fun i => if i % m.numCores = core then
        cyclesToPs m.frequencyMhz (perLayerCycles.getD i 1000) else 0).sum ≤
      (((List.range n).flatMap (charged m numLayers transfer perLayerCycles)).map
        (Charge.psOn core)).sum := by
  rw [sum_map_flatMap]
  refine List.sum_le_sum fun i _ => ?_
  rw [charged, List.map_cons, List.sum_cons]
  exact Nat.le_add_right _ _

/-! ### Owners -/

section Partition

variable {numCores n core core' layer : ℕ} {layerAssignments : List (List ℕ)}

/-- A layer has one owner. -/
theorem owner_unique (h : IsPartition numCores n layerAssignments)
    (hcore : Owns layerAssignments core layer) (hcore' : Owns layerAssignments core' layer) :
    core = core' := by
  have hdisjoint := (List.nodup_flatten.mp (h.layers.nodup_iff.mpr List.nodup_range)).2
  rw [List.pairwise_iff_getElem] at hdisjoint
  obtain ⟨layers, hget, hmem⟩ := hcore
  obtain ⟨layers', hget', hmem'⟩ := hcore'
  obtain ⟨hlt, rfl⟩ := List.getElem?_eq_some_iff.mp hget
  obtain ⟨hlt', rfl⟩ := List.getElem?_eq_some_iff.mp hget'
  rcases lt_trichotomy core core' with hless | heq | hless
  · exact absurd hmem' (hdisjoint core core' hlt hlt' hless hmem)
  · exact heq
  · exact absurd hmem (hdisjoint core' core hlt' hlt hless hmem')

/-- The layers with an owner are those of the model. -/
theorem exists_owner_iff (h : IsPartition numCores n layerAssignments) :
    (∃ core, Owns layerAssignments core layer) ↔ layer < n := by
  rw [← List.mem_range, ← h.layers.mem_iff, List.mem_flatten]
  constructor
  · rintro ⟨core, layers, hget, hmem⟩
    exact ⟨layers, List.mem_of_getElem? hget, hmem⟩
  · rintro ⟨layers, hlayers, hmem⟩
    obtain ⟨core, hget⟩ := List.mem_iff_getElem?.mp hlayers
    exact ⟨core, layers, hget, hmem⟩

/-- Where the owners take turns, the layers on different cores are those that the loop finds. -/
theorem crosses_iff (h : IsPartition numCores n layerAssignments)
    (howners : ∀ layer < n, Owns layerAssignments (layer % numCores) layer) :
    Crosses layerAssignments layer ↔
      (layer + 1) % numCores ≠ layer % numCores ∧ layer + 1 < n := by
  constructor
  · rintro ⟨core, core', hcore, hcore', hne⟩
    have hlast : layer + 1 < n := (exists_owner_iff h).mp ⟨core', hcore'⟩
    obtain rfl := owner_unique h hcore (howners layer (by omega))
    obtain rfl := owner_unique h hcore' (howners (layer + 1) hlast)
    exact ⟨hne.symm, hlast⟩
  · rintro ⟨hne, hlast⟩
    exact ⟨_, _, howners layer (by omega), howners (layer + 1) hlast, hne.symm⟩

/-- The layers of a core are a part of all layers. -/
theorem sum_layers_le (h : IsPartition numCores n layerAssignments) {layers : List ℕ}
    (hlayers : layers ∈ layerAssignments) (g : ℕ → ℕ) :
    (layers.map g).sum ≤ ((List.range n).map g).sum := by
  have hsub : layers.Sublist layerAssignments.flatten := List.sublist_flatten_of_mem hlayers
  calc (layers.map g).sum
      ≤ (layerAssignments.flatten.map g).sum := (hsub.map g).sum_le_sum fun _ _ => Nat.zero_le _
    _ = ((List.range n).map g).sum := (h.layers.map g).sum_eq

end Partition

/-! ### Pipelines of cores with the default frequency -/

/-- A transfer is possible if the FIFO is a byte wide. -/
theorem fifoTransferCycles_eq_ok {numElements elementBytes : ℕ} :
    m.fifoTransferCycles numElements elementBytes = .ok transfer ↔
      8 ≤ m.fifo.widthBits ∧
        transfer =
          numElements * elementBytes ⌈/⌉ (m.fifo.widthBits / 8) + m.fifo.latencyCycles := by
  unfold fifoTransferCycles
  dsimp only
  split_ifs with hzero
  · refine ⟨fun h => (by cases h), fun h => ?_⟩
    omega
  · rw [Except.ok.injEq, eq_comm]
    exact ⟨fun h => ⟨by omega, h⟩, fun h => h.2⟩

theorem frequencyMhz_create (numCores : ℕ) (fifo : FIFOConfig) :
    (create numCores fifo).frequencyMhz = Nat.succPNat 999 := by
  cases numCores with
  | zero => rfl
  | succ n => rw [frequencyMhz, create, List.range_succ_eq_map]; rfl

theorem cyclesToPs_default (cycles : ℕ) : cyclesToPs (Nat.succPNat 999) cycles = cycles * 1000 := by
  have hfreq : ((Nat.succPNat 999 : ℕ+) : ℕ) = 1000 := rfl
  rw [cyclesToPs, hfreq, Nat.ceilDiv_eq_add_pred_div]
  omega

/-- What a run charges, reports and counts. -/
theorem simulatePipeline_spec {layerAssignments : List (List ℕ)}
    (htransfer : m.fifoTransferCycles activationSize = .ok transfer)
    (h : IsPartition m.numCores perLayerCycles.length layerAssignments) :
    ∃ r maxPs, m.simulatePipeline layerAssignments perLayerCycles activationSize = .ok r ∧
      r.charges = (List.range perLayerCycles.length).flatMap
        (charged m perLayerCycles.length transfer perLayerCycles) ∧
      r.fifoOverhead = transfer * perLayerCycles.length ∧
      r.totalCycles = maxPs * m.frequencyMhz / 1000000 ∧
      ∀ core < m.numCores, (r.charges.map (Charge.psOn core)).sum ≤ maxPs := by
  have hlayers : (layerAssignments.map List.length).sum = perLayerCycles.length := by
    rw [← List.length_flatten, h.layers.length_eq, List.length_range]
  obtain ⟨st, hrun, hcharges, hlength, hcovers⟩ : ∃ st,
      (List.range perLayerCycles.length).foldlM
        (m.pipelineStep perLayerCycles.length perLayerCycles activationSize)
        { coreProgress := List.replicate m.numCores 0 } = .ok st ∧
      st.charges = (List.range perLayerCycles.length).flatMap
        (charged m perLayerCycles.length transfer perLayerCycles) ∧ Covers m.numCores st := by
    by_cases hcores : m.numCores = 0
    · have hnone : perLayerCycles.length = 0 := by
        have hempty := List.length_eq_zero_iff.mp (h.cores.trans hcores)
        rw [← hlayers, hempty]
        rfl
      rw [hnone]
      exact ⟨_, rfl, rfl, List.length_replicate, fun core hcore => by omega⟩
    · exact foldlM_pipelineStep hcores htransfer _
  set maxPs := maxProgress st.coreProgress with hmax
  refine ⟨⟨maxPs * m.frequencyMhz / 1000000, maxPs * m.frequencyMhz / 1000000,
    transfer * perLayerCycles.length,
    maxPs * m.frequencyMhz / 1000000 - maxPs * m.frequencyMhz / 1000000, st.coreProgress,
    st.charges⟩, maxPs, ?_, hcharges, rfl, rfl, fun core hcore => ?_⟩
  · rw [simulatePipeline]
    dsimp only
    rw [hlayers, hrun, bind_eq_ok_left, htransfer, bind_eq_ok_left, hmax]
  · refine (hcovers core hcore).trans (le_foldl_max_of_mem ?_)
    rw [List.getD_eq_getElem _ _ (by omega)]
    exact List.getElem_mem _

/-- The total of a run in which the owners take turns covers the layers of each core. -/
theorem total_covers {numCores maxPs : ℕ} {fifo : FIFOConfig} {layerAssignments : List (List ℕ)}
    (h : IsPartition numCores perLayerCycles.length layerAssignments)
    (howners : ∀ layer < perLayerCycles.length,
      Owns layerAssignments (layer % numCores) layer)
    (hmax : ∀ core < numCores, (((List.range perLayerCycles.length).flatMap
      (charged (create numCores fifo) numLayers transfer perLayerCycles)).map
        (Charge.psOn core)).sum ≤ maxPs) {layers : List ℕ} (hlayers : layers ∈ layerAssignments) :
    (layers.map fun layer => perLayerCycles.getD layer 0).sum * 1000 ≤ maxPs := by
  obtain ⟨core, hget⟩ := List.mem_iff_getElem?.mp hlayers
  have hcore : core < numCores := h.cores ▸ (List.getElem?_eq_some_iff.mp hget).1
  have hwork : (layers.map fun layer => perLayerCycles.getD layer 0).sum * 1000 =
      (layers.map fun i => if i % numCores = core then
        cyclesToPs (Nat.succPNat 999) (perLayerCycles.getD i 1000) else 0).sum := by
    rw [← List.sum_map_mul_right]
    refine congrArg List.sum (List.map_congr_left fun layer hlayer => ?_)
    have howns : Owns layerAssignments core layer := ⟨layers, hget, hlayer⟩
    have hlt := (exists_owner_iff h).mp ⟨core, howns⟩
    rw [if_pos (owner_unique h (howners layer hlt) howns), cyclesToPs_default,
      List.getD_eq_getElem _ _ hlt, List.getD_eq_getElem _ _ hlt]
  rw [hwork]
  refine (sum_layers_le h hlayers _).trans (le_trans ?_ (hmax core hcore))
  have hsum := sum_work_le (create numCores fifo) numLayers transfer perLayerCycles
    perLayerCycles.length core
  rwa [frequencyMhz_create] at hsum

/-- A transfer that takes no time has nothing to carry. -/
theorem transferCycles_eq_zero {widthBits latencyCycles : ℕ} (hwidth : 8 ≤ widthBits)
    (h : activationSize * 2 ⌈/⌉ (widthBits / 8) + latencyCycles = 0) :
    activationSize = 0 ∧ latencyCycles = 0 := by
  have hbytes : 0 < widthBits / 8 := by omega
  have hnone : activationSize * 2 ⌈/⌉ (widthBits / 8) ≤ 0 := by omega
  rw [ceilDiv_le_iff_le_smul hbytes, smul_zero] at hnone
  omega

/-- The overhead counts one transfer more than there are. -/
theorem free_of_overhead {numCores : ℕ} {fifo : FIFOConfig}
    (hwidth : 8 ≤ fifo.widthBits)
    (htransfer : transfer = activationSize * 2 ⌈/⌉ (fifo.widthBits / 8) + fifo.latencyCycles)
    (hoverhead : transfer * perLayerCycles.length * 1000 =
      (((List.range perLayerCycles.length).flatMap (charged (create numCores fifo)
        perLayerCycles.length transfer perLayerCycles)).map Charge.transferPs).sum) :
    perLayerCycles = [] ∨ activationSize = 0 ∧ fifo.latencyCycles = 0 := by
  refine or_iff_not_imp_left.mpr fun hlayers => ?_
  have hpos := List.length_pos_iff.mpr hlayers
  have hle := sum_transferPs_le (create numCores fifo) transfer perLayerCycles
    perLayerCycles.length
  rw [← hoverhead, frequencyMhz_create, cyclesToPs_default] at hle
  have hnone : transfer = 0 := by
    obtain ⟨k, hk⟩ := Nat.exists_eq_succ_of_ne_zero hpos.ne'
    rw [hk, Nat.succ_eq_add_one, Nat.add_sub_cancel] at hle
    nlinarith
  exact transferCycles_eq_zero hwidth (htransfer.symm.trans hnone)

/-- Without time for transfers and with owners that take turns, the assignment is respected. -/
theorem respects_of_owners {numCores maxPs : ℕ} {fifo : FIFOConfig}
    {layerAssignments : List (List ℕ)} {r : PipelineResult}
    (h : IsPartition numCores perLayerCycles.length layerAssignments)
    (htransfer : (create numCores fifo).fifoTransferCycles activationSize = .ok transfer)
    (hfree : perLayerCycles = [] ∨ transfer = 0)
    (howners : ∀ layer < perLayerCycles.length, Owns layerAssignments (layer % numCores) layer)
    (hcharges : r.charges = (List.range perLayerCycles.length).flatMap
      (charged (create numCores fifo) perLayerCycles.length transfer perLayerCycles))
    (hoverhead : r.fifoOverhead = transfer * perLayerCycles.length)
    (htotal : r.totalCycles = maxPs * (Nat.succPNat 999 : ℕ+) / 1000000)
    (hmax : ∀ core < numCores, (r.charges.map (Charge.psOn core)).sum ≤ maxPs) :
    Respects (create numCores fifo) layerAssignments perLayerCycles activationSize r where
  work := by
    intro core layer hcore
    have hlt := (exists_owner_iff h).mp ⟨core, hcore⟩
    obtain rfl := owner_unique h hcore (howners layer hlt)
    have hcycles : perLayerCycles.getD layer 1000 = perLayerCycles.getD layer 0 := by
      rw [List.getD_eq_getElem _ _ hlt, List.getD_eq_getElem _ _ hlt]
    rw [hcharges, filter_isWork, ← hcycles]
    exact if_pos hlt
  crossing := by
    intro layer hcrosses
    have hcross := (crosses_iff h howners).mp hcrosses
    refine ⟨layer % numCores, cyclesToPs (create numCores fifo).frequencyMhz transfer,
      howners layer (by omega), fifoTransferPs_eq_ok htransfer _, ?_⟩
    rw [hcharges, filter_isTransfer]
    exact if_pos hcross
  staying := by
    intro layer hstays
    rw [crosses_iff h howners] at hstays
    rw [hcharges, filter_isTransfer]
    exact if_neg hstays
  overhead := by
    have hzero : transfer * perLayerCycles.length = 0 ∧
        (perLayerCycles.length - 1) * cyclesToPs (Nat.succPNat 999) transfer = 0 := by
      rw [cyclesToPs_default]
      rcases hfree with rfl | rfl
      · exact ⟨rfl, Nat.zero_mul _⟩
      · exact ⟨Nat.zero_mul _, Nat.mul_zero _⟩
    have hle := sum_transferPs_le (create numCores fifo) transfer perLayerCycles
      perLayerCycles.length
    rw [frequencyMhz_create, hzero.2, ← hcharges] at hle
    rw [frequencyMhz_create, hoverhead, hzero.1, cyclesToPs_default, Nat.zero_mul]
    exact (Nat.le_zero.mp hle).symm
  total := by
    intro layers hlayers
    have hcovers := total_covers h howners (hcharges ▸ hmax) hlayers
    have hfreq : ((Nat.succPNat 999 : ℕ+) : ℕ) = 1000 := rfl
    rw [htotal, hfreq]
    omega

/-- A pipeline respects its assignment exactly when its FIFO is a byte wide, it has no layer or its
transfers take no time, and the owners of the layers take turns. -/
theorem respects_iff {numCores : ℕ} (fifo : FIFOConfig) {layerAssignments : List (List ℕ)}
    {perLayerCycles : List ℕ} (activationSize : ℕ)
    (h : IsPartition numCores perLayerCycles.length layerAssignments) :
    (∃ r, (create numCores fifo).simulatePipeline layerAssignments perLayerCycles activationSize =
        .ok r ∧
      Respects (create numCores fifo) layerAssignments perLayerCycles activationSize r) ↔
    8 ≤ fifo.widthBits ∧
      (perLayerCycles = [] ∨ activationSize = 0 ∧ fifo.latencyCycles = 0) ∧
      ∀ layer < perLayerCycles.length, Owns layerAssignments (layer % numCores) layer := by
  constructor
  · rintro ⟨r, hrun, hrespects⟩
    have hsteps := hrun
    rw [simulatePipeline] at hsteps
    obtain ⟨st, -, hrest⟩ := bind_eq_ok.mp hsteps
    obtain ⟨transfer, htransfer, -⟩ := bind_eq_ok.mp hrest
    obtain ⟨hwidth, hcycles⟩ := fifoTransferCycles_eq_ok.mp htransfer
    obtain ⟨r', maxPs, hrun', hcharges, hoverhead, -, -⟩ :=
      simulatePipeline_spec (m := create numCores fifo) htransfer h
    obtain rfl := Except.ok.inj (hrun'.symm.trans hrun)
    refine ⟨hwidth, ?_, fun layer hlayer => ?_⟩
    · have hsum := hrespects.overhead
      rw [frequencyMhz_create, cyclesToPs_default, hoverhead, hcharges] at hsum
      exact free_of_overhead hwidth hcycles hsum
    · obtain ⟨core, hcore⟩ := (exists_owner_iff h).mpr hlayer
      have hwork := hrespects.work core layer hcore
      rw [hcharges, filter_isWork, if_pos hlayer] at hwork
      obtain ⟨hturn, -⟩ := Charge.work.inj (List.singleton_inj.mp hwork)
      exact hturn ▸ hcore
  · rintro ⟨hwidth, hnone, howners⟩
    obtain ⟨transfer, hcycles⟩ : ∃ transfer,
        transfer = activationSize * 2 ⌈/⌉ (fifo.widthBits / 8) + fifo.latencyCycles := ⟨_, rfl⟩
    have htransfer : (create numCores fifo).fifoTransferCycles activationSize = .ok transfer :=
      fifoTransferCycles_eq_ok.mpr ⟨hwidth, hcycles⟩
    obtain ⟨r, maxPs, hrun, hcharges, hoverhead, htotal, hmax⟩ :=
      simulatePipeline_spec (m := create numCores fifo) htransfer h
    rw [frequencyMhz_create] at htotal
    refine ⟨r, hrun, respects_of_owners h htransfer ?_ howners hcharges hoverhead htotal hmax⟩
    refine hnone.imp id fun hfree => ?_
    rw [hcycles, hfree.1, hfree.2, Nat.zero_mul, zero_ceilDiv]

/-- Four layers, the first two of which are assigned to the first of two cores. -/
def halves : List (List ℕ) := [[0, 1], [2, 3]]

theorem halves_isPartition : IsPartition 2 4 halves := ⟨rfl, by decide⟩

/-- The second layer is charged to the second core. -/
theorem halves_not_respected :
    ¬∃ r, (create 2 {}).simulatePipeline halves [100, 100, 100, 100] = .ok r ∧
      Respects (create 2 {}) halves [100, 100, 100, 100] 2560 r := by
  rintro ⟨r, hrun, hrespects⟩
  have htransfer : (create 2 {}).fifoTransferCycles 2560 = .ok 162 := rfl
  have hpartition : IsPartition (create 2 {}).numCores [100, 100, 100, 100].length halves :=
    halves_isPartition
  obtain ⟨r', maxPs, hrun', hcharges, -⟩ := simulatePipeline_spec htransfer hpartition
  obtain rfl := Except.ok.inj (hrun'.symm.trans hrun)
  have hwork := hrespects.work 0 1 ⟨[0, 1], rfl, by decide⟩
  rw [hcharges, filter_isWork] at hwork
  obtain ⟨hturn, -⟩ := Charge.work.inj (List.singleton_inj.mp hwork)
  exact absurd hturn (by decide)

/-- Two layers on two cores, with nothing to carry between them. -/
theorem respects_two_layers :
    ∃ r, (create 2 { latencyCycles := 0 }).simulatePipeline [[0], [1]] [10, 20] 0 = .ok r ∧
      Respects (create 2 { latencyCycles := 0 }) [[0], [1]] [10, 20] 0 r := by
  have hpartition : IsPartition 2 2 [[0], [1]] := ⟨rfl, by decide⟩
  refine (respects_iff { latencyCycles := 0 } 0 hpartition).mpr
    ⟨by decide, .inr ⟨rfl, rfl⟩, fun layer hlayer => ?_⟩
  have hcases : layer = 0 ∨ layer = 1 := by
    have htwo : layer < 2 := hlayer
    omega
  rcases hcases with rfl | rfl
  · exact ⟨[0], rfl, by decide⟩
  · exact ⟨[1], rfl, by decide⟩

end MultiCoreTimeline

end Simulator

end NpuArc
