import CircuitPartition.Proofs.Cost.Slack
import CircuitPartition.Proofs.Cost.Walk
import CircuitPartition.Proofs.Graph.Representation
import Mathlib.Data.Set.Function

/-!
What becomes of a solution when its blocks are given other names. No cost and no cut depends on the
names, and tables by block have the same rows under the new ones.
-/

namespace CircuitPartition

variable {α : Type} {f : Nat → Nat}

section Blocks

variable {s : Set Nat} {blocks : List Nat}

theorem apart_of_apart_map (h : apart (blocks.map f) = true) : apart blocks = true := by
  rw [apart_iff] at h ⊢
  obtain ⟨_, hfa, _, hfb, hne⟩ := h
  obtain ⟨a, ha, rfl⟩ := List.mem_map.mp hfa
  obtain ⟨b, hb, rfl⟩ := List.mem_map.mp hfb
  exact ⟨a, ha, b, hb, ne_of_apply_ne f hne⟩

variable (hf : s.InjOn f) (hs : ∀ block ∈ blocks, block ∈ s)

include hf hs

theorem apart_map : apart (blocks.map f) = apart blocks := by
  rw [Bool.eq_iff_iff]
  refine ⟨apart_of_apart_map, ?_⟩
  rw [apart_iff, apart_iff]
  rintro ⟨a, ha, b, hb, hne⟩
  exact ⟨f a, List.mem_map_of_mem ha, f b, List.mem_map_of_mem hb,
    hf.ne (hs a ha) (hs b hb) hne⟩

theorem count_map {block : Nat} (hblock : block ∈ s) :
    (blocks.map f).count (f block) = blocks.count block := by
  unfold List.count
  rw [List.countP_map]
  apply List.countP_congr
  intro b hb
  simp [hf.eq_iff (hs b hb) hblock]

theorem blockRuns_map : blockRuns (blocks.map f) = (blockRuns blocks).map f := by
  have hne : ∀ a ∈ blocks, ∀ b ∈ blocks, a ≠ b ↔ f a ≠ f b := by
    intro a ha b hb
    exact (hf.ne_iff (hs a ha) (hs b hb)).symm
  rw [blockRuns_eq_destutter, blockRuns_eq_destutter, List.map_destutter hne]

theorem returns_map : returns (blocks.map f) = returns blocks := by
  have hcounts : (blocks.map f).map (blocks.map f).count = blocks.map blocks.count := by
    rw [List.map_map]
    apply List.map_congr_left
    intro block hblock
    exact count_map hf hs (hs block hblock)
  unfold returns
  rw [hcounts]

theorem crossings_map : crossings (blocks.map f) = crossings blocks := by
  rw [← length_blockRuns_sub_one, blockRuns_map hf hs, List.length_map, length_blockRuns_sub_one]

end Blocks

namespace CostModel.Admits

variable {model : CostModel α} {graph : Hypergraph α} {solution : Solution}
  (h : model.Admits graph solution)

include h

theorem map (hf : ∀ block < model.numParts, f block < model.numParts) :
    model.Admits graph (solution.map f) := by
  refine ⟨h.compatible, ?_, ?_⟩
  . rw [Array.size_map, h.size_eq]
  . intro _ hmem
    obtain ⟨block, hblock, rfl⟩ := Array.mem_map.mp hmem
    exact hf block (h.lt block hblock)

theorem blockOf_map {v : Nat} (hv : v < graph.numVertices) :
    Solution.blockOf (solution.map f) v = f (solution.blockOf v) := by
  have hsome := h.getElem?_of_lt hv
  unfold Solution.blockOf at hsome ⊢
  rw [Array.getElem?_map, hsome]
  rfl

theorem map_blockOf_map {vertices : List Nat} (hv : ∀ v ∈ vertices, v < graph.numVertices) :
    vertices.map (Solution.blockOf (solution.map f)) = (vertices.map solution.blockOf).map f := by
  rw [List.map_map]
  apply List.map_congr_left
  intro v hmem
  exact h.blockOf_map (hv v hmem)

variable (hg : graph.WellFormed)

include hg

theorem map_blockOf_map_pins (e : Nat) :
    (graph.pins e).map (Solution.blockOf (solution.map f))
      =
    ((graph.pins e).map solution.blockOf).map f :=
  h.map_blockOf_map fun _ hv => hg.lt_of_mem hv

theorem map_blockOf_map_walk (p : Nat) :
    (graph.walk p).map (Solution.blockOf (solution.map f))
      =
    ((graph.walk p).map solution.blockOf).map f :=
  h.map_blockOf_map fun _ hv => hg.lt_of_mem_walk hv

end CostModel.Admits

structure Renamed {β : Type} (n : Nat) (r : Nat → Nat) (rows renamed : Array β) : Prop where
  size_eq : rows.size = n
  size_renamed : renamed.size = n
  getElem?_eq : ∀ block < n, renamed[r block]? = rows[block]?

section Renaming

variable {n : Nat} {r : Nat → Nat} (hr : Set.BijOn r (Set.Iio n) (Set.Iio n))

include hr

theorem renamed_count {blocks : List Nat} (hblocks : ∀ block ∈ blocks, block < n) :
    Renamed n r (Degrees.count n blocks) (Degrees.count n (blocks.map r)) := by
  refine ⟨Degrees.size_count, Degrees.size_count, ?_⟩
  intro block hblock
  rw [Degrees.getElem?_count hblock, Degrees.getElem?_count (hr.mapsTo hblock),
    count_map hr.injOn hblocks hblock]

theorem renamed_empty [Scalar α] (columns : Nat) :
    Renamed n r (Balance.empty n columns : Balance α) (Balance.empty n columns) := by
  unfold Balance.empty
  refine ⟨Array.size_replicate, Array.size_replicate, ?_⟩
  intro block hblock
  have hrblock : r block < n := hr.mapsTo hblock
  simp [hblock, hrblock]

theorem Renamed.modify {β : Type} {rows renamed : Array β} (h : Renamed n r rows renamed)
    {block : Nat} (hblock : block < n) (g : β → β) :
    Renamed n r (rows.modify block g) (renamed.modify (r block) g) := by
  refine ⟨?_, ?_, ?_⟩
  . rw [Array.size_modify, h.size_eq]
  . rw [Array.size_modify, h.size_renamed]
  . intro other hother
    rw [Array.getElem?_modify, Array.getElem?_modify, h.getElem?_eq other hother]
    simp only [hr.injOn.eq_iff hblock hother]

theorem Renamed.load [Scalar α] {balance renamed : Balance α} (h : Renamed n r balance renamed)
    {entries : List (Nat × List α)} (hentries : ∀ entry ∈ entries, entry.1 < n) :
    Renamed n r (balance.load entries)
      (renamed.load (entries.map fun (block, weight) => (r block, weight))) := by
  induction entries generalizing balance renamed with
  | nil => exact h
  | cons entry entries ih =>
    rw [List.forall_mem_cons] at hentries
    exact ih (h.modify hr hentries.left _) hentries.right

end Renaming

namespace CostModel

theorem chargedSlacks_congr [Scalar α] (model : CostModel α) {graph : Hypergraph α}
    {solution other : Solution} (h : graph.cut other.blockOf = graph.cut solution.blockOf)
    (timing : Timing α) :
    model.chargedSlacks graph other timing = model.chargedSlacks graph solution timing := by
  unfold chargedSlacks chargedHyperedge chargedPath
  rw [h]

theorem updateTiming_congr [Scalar α] {model : CostModel α} {graph : Hypergraph α}
    (hg : graph.WellFormed) {solution other : Solution} (h : model.Admits graph solution)
    (hother : model.Admits graph other)
    (hcut : graph.cut other.blockOf = graph.cut solution.blockOf) :
    model.updateTiming graph other = model.updateTiming graph solution := by
  cases ht : graph.timing with
  | none =>
    unfold updateTiming
    rw [checkSolution_eq_ok.mpr h, checkSolution_eq_ok.mpr hother, ht]
  | some timing =>
    rw [model.updateTiming_of_admits hg ht h, model.updateTiming_of_admits hg ht hother,
      model.chargedSlacks_congr hcut]

namespace Admits

variable {model : CostModel α} {graph : Hypergraph α} {solution : Solution}
  (h : model.Admits graph solution) (hg : graph.WellFormed) {r : Nat → Nat}
  (hr : Set.BijOn r (Set.Iio model.numParts) (Set.Iio model.numParts))

include h hg hr

theorem cut_map : graph.cut (Solution.blockOf (solution.map r)) = graph.cut solution.blockOf := by
  funext e
  unfold Hypergraph.cut
  rw [h.map_blockOf_map_pins hg, apart_map hr.injOn (h.blockOf_lt_of_mem_pins hg)]

theorem renamed_degreeTable {e : Nat} (he : e < graph.numHyperedges) :
    ∃ degrees degrees',
      (model.degreeTable graph solution)[e]? = some degrees ∧
      (model.degreeTable graph (solution.map r))[e]? = some degrees' ∧
      Renamed model.numParts r degrees degrees' := by
  refine ⟨_, _, getElem?_degreeTable he, getElem?_degreeTable he, ?_⟩
  rw [h.map_blockOf_map_pins hg]
  exact renamed_count hr (h.blockOf_lt_of_mem_pins hg)

theorem crossings_map : graph.crossings (Solution.blockOf (solution.map r))
    = graph.crossings solution.blockOf := by
  funext p
  unfold Hypergraph.crossings
  rw [h.map_blockOf_map_walk hg, CircuitPartition.crossings_map hr.injOn
    (h.blockOf_lt_of_mem_walk hg)]

variable [Scalar α]

theorem walkCost_map : model.walkCost graph (Solution.blockOf (solution.map r))
    = model.walkCost graph solution.blockOf := by
  have hruns (p : Nat) : ∀ block ∈ blockRuns ((graph.walk p).map solution.blockOf),
      block < model.numParts := by
    intro block hblock
    exact h.blockOf_lt_of_mem_walk hg block (mem_of_mem_blockRuns hblock)
  funext p
  rw [walkCost_eq, walkCost_eq, h.crossings_map hg hr, h.map_blockOf_map_walk hg,
    blockRuns_map hr.injOn (h.blockOf_lt_of_mem_walk hg), returns_map hr.injOn (hruns p)]

theorem renamed_balanceTable : Renamed model.numParts r (model.balanceTable graph solution)
    (model.balanceTable graph (solution.map r)) := by
  have hentries : graph.entries (solution.map r)
      = (graph.entries solution).map fun (block, weight) => (r block, weight) := by
    unfold Hypergraph.entries
    rw [List.map_map]
    apply List.map_congr_left
    intro v hv
    rw [h.blockOf_map (List.mem_range.mp hv)]
    rfl
  unfold balanceTable
  rw [hentries]
  exact (renamed_empty hr _).load hr fun entry hentry => (h.entries_fit hg entry hentry).left

end Admits

theorem queries_renamed {graph : Hypergraph Double} (hgraph : graph.Obtained)
    (changes : List (Change Double)) {model : CostModel Double} {solution : Solution}
    {r : Nat → Nat} :
    let current := graph.changeAll changes
    let renamed : Solution := solution.map r
    model.Admits current solution →
    Set.BijOn r (Set.Iio model.numParts) (Set.Iio model.numParts) →
    (∃ cut, model.cutHyperedges current solution = .ok cut ∧
      model.cutHyperedges current renamed = .ok cut) ∧
    (∃ costs, model.pathCosts current solution = .ok costs ∧
      model.pathCosts current renamed = .ok costs) ∧
    (∃ cuts, model.timingCuts current solution = .ok cuts ∧
      model.timingCuts current renamed = .ok cuts) ∧
    (∃ score score', model.score current solution = .ok score ∧
      model.score current renamed = .ok score' ∧ score'.cost = score.cost) ∧
    model.updateTiming current renamed = model.updateTiming current solution ∧
    (∃ degrees degrees', model.netDegrees current solution = .ok degrees ∧
      model.netDegrees current renamed = .ok degrees' ∧
      ∀ e < current.numHyperedges, ∃ row row', degrees[e]? = some row ∧ degrees'[e]? = some row' ∧
        Renamed model.numParts r row row') ∧
    ∃ balance balance', model.blockBalance current solution = .ok balance ∧
      model.blockBalance current renamed = .ok balance' ∧
      Renamed model.numParts r balance balance' := by
  intro current renamed h hr
  have hg : current.WellFormed := (hgraph.reachable.changeAll changes).wellFormed
  have h' : model.Admits current renamed := h.map hr.mapsTo
  have hcut : current.cut renamed.blockOf = current.cut solution.blockOf := h.cut_map hg hr
  have hcosts : model.costTable current renamed = model.costTable current solution := by
    unfold costTable
    rw [h.walkCost_map hg hr]
  refine ⟨?_, ?_, ?_, ?_, ?_, ?_, ?_⟩
  . refine ⟨_, h.cutHyperedges hg, ?_⟩
    rw [h'.cutHyperedges hg, hcut]
  . refine ⟨_, h.pathCosts hg, ?_⟩
    rw [h'.pathCosts hg, hcosts]
  . refine ⟨_, h.timingCuts hg, ?_⟩
    rw [h'.timingCuts hg]
    unfold Hypergraph.timingTable
    rw [h.crossings_map hg hr]
  . refine ⟨_, _, h.score hg, h'.score hg, ?_⟩
    unfold scoreTable Score.cost
    dsimp only
    rw [hcut, hcosts]
  . exact updateTiming_congr hg h h' hcut
  . exact ⟨_, _, h.netDegrees hg, h'.netDegrees hg, fun _ he => h.renamed_degreeTable hg hr he⟩
  . exact ⟨_, _, h.blockBalance hg, h'.blockBalance hg, h.renamed_balanceTable hg hr⟩

theorem bijOn_rotate : Set.BijOn (fun block => (block + 1) % 3) (Set.Iio 3) (Set.Iio 3) := by
  refine ⟨?_, ?_, ?_⟩
  . intro block _
    exact Nat.mod_lt _ (by decide)
  . intro a ha b hb heq
    rw [Set.mem_Iio] at ha hb
    dsimp only at heq
    omega
  . intro block hblock
    rw [Set.mem_Iio] at hblock
    refine ⟨(block + 2) % 3, Nat.mod_lt _ (by decide), ?_⟩
    dsimp only
    omega

theorem queries_renamed_thereAndBack :
    let model : CostModel Double := { CostModel.standard with numParts := 3 }
    Hypergraph.thereAndBack.Obtained ∧ model.Admits Hypergraph.thereAndBack #[0, 2] ∧
      (∃ costs, model.pathCosts Hypergraph.thereAndBack #[0, 2] = .ok costs ∧
        model.pathCosts Hypergraph.thereAndBack #[1, 0] = .ok costs) ∧
      model.updateTiming Hypergraph.thereAndBack #[1, 0]
        = model.updateTiming Hypergraph.thereAndBack #[0, 2] ∧
      ∃ balance balance', model.blockBalance Hypergraph.thereAndBack #[0, 2] = .ok balance ∧
        model.blockBalance Hypergraph.thereAndBack #[1, 0] = .ok balance' ∧
        Renamed 3 (fun block => (block + 1) % 3) balance balance' := by
  intro model
  have h : model.Admits Hypergraph.thereAndBack #[0, 2] := checkSolution_eq_ok.mp rfl
  have hnames : Array.map (fun block => (block + 1) % 3) #[0, 2] = #[1, 0] := by simp
  obtain ⟨_, hcosts, _, _, hupdate, _, hbalance⟩ :=
    queries_renamed Hypergraph.obtained_thereAndBack [] h bijOn_rotate
  rw [hnames] at hcosts hupdate hbalance
  exact ⟨Hypergraph.obtained_thereAndBack, h, hcosts, hupdate, hbalance⟩

end CostModel

end CircuitPartition
