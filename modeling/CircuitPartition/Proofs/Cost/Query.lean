import CircuitPartition.Cost.Score
import CircuitPartition.Proofs.Graph.Incidence
import CircuitPartition.Proofs.Partition.Table

/-!
What the queries of a cost model answer about a solution that it admits: all of them do answer, and
the answer is that of a plain function of the blocks.
-/

namespace CircuitPartition

def Solution.blockOf (solution : Solution) (v : Nat) : Nat :=
  solution[v]?.getD 0

variable {α : Type} {blockOf : Nat → Option Nat} {f : Nat → Nat}

theorem isCut?_leaves_of_found {pins : List Nat} (h : ∀ v ∈ pins, blockOf v = some (f v))
    (first : Nat) : isCut?.leaves blockOf first pins = some ((pins.map f).any (· != first)) := by
  induction pins with
  | nil => rfl
  | cons pin pins ih =>
    rw [List.forall_mem_cons] at h
    unfold isCut?.leaves
    rw [h.left, some_bind]
    split
    . next heq =>
      rw [ih h.right]
      simp [heq]
    . next hne =>
      simp [hne]

theorem isCut?_of_found {pins : List Nat} (h : ∀ v ∈ pins, blockOf v = some (f v)) :
    isCut? blockOf pins = some (apart (pins.map f)) := by
  cases pins with
  | nil => rfl
  | cons pin pins =>
    rw [List.forall_mem_cons] at h
    unfold isCut?
    dsimp only
    rw [h.left, some_bind, isCut?_leaves_of_found h.right, List.map_cons,
      apart_cons]

namespace Hypergraph

variable (graph : Hypergraph α)

def cut (f : Nat → Nat) (e : Nat) : Bool :=
  apart ((graph.pins e).map f)

def entries (solution : Solution) : List (Nat × List α) :=
  (List.range graph.numVertices).map fun v => (solution.blockOf v, graph.weight v)

variable {graph} {e : Nat}

theorem isCut?_of_found (he : e < graph.numHyperedges)
    (h : ∀ v ∈ graph.pins e, blockOf v = some (f v)) :
    graph.isCut? blockOf e = some (graph.cut f e) := by
  obtain ⟨hyperedge, _, hsome, hpins⟩ := hyperedge?_of_lt he
  unfold Hypergraph.isCut? cut
  rw [hsome, some_bind, ← hpins]
  apply CircuitPartition.isCut?_of_found h

theorem cut_congr {g : Nat → Nat} (h : ∀ v ∈ graph.pins e, f v = g v) :
    graph.cut f e = graph.cut g e := by
  unfold cut
  rw [List.map_congr_left h]

end Hypergraph

theorem mem_of_mem_blockRuns {block : Nat} {blocks : List Nat} (h : block ∈ blockRuns blocks) :
    block ∈ blocks := by
  induction blocks with
  | nil => simp [blockRuns] at h
  | cons b blocks ih =>
    unfold blockRuns at h
    split at h
    . simp at h
      simp [h]
    . next next runs hruns =>
      rw [hruns] at ih
      split at h
      . exact List.mem_cons_of_mem b (ih h)
      . cases h with
        | head => exact List.mem_cons_self
        | tail _ h => exact List.mem_cons_of_mem b (ih h)

namespace CostModel

structure Admits (model : CostModel α) (graph : Hypergraph α) (solution : Solution) : Prop where
  compatible : model.checkCompatible graph = .ok ()
  size_eq : solution.size = graph.numVertices
  lt : ∀ block ∈ solution, block < model.numParts

variable {model : CostModel α} {graph : Hypergraph α} {solution : Solution}

theorem checkSolution_eq_ok :
    model.checkSolution graph solution = .ok () ↔ model.Admits graph solution := by
  unfold checkSolution
  rw [check_bind_eq_ok, Failure.liftM_config_eq_ok]
  simp only [throw_eq_error, error_bind]
  constructor
  . rintro ⟨hcompatible, h⟩
    split at h
    . simp at h
    . next hsize =>
      refine ⟨hcompatible, not_not.mp hsize, ?_⟩
      split at h
      . simp at h
      . next hfind =>
        rw [List.find?_eq_none] at hfind
        intro block hblock
        obtain ⟨v, hv⟩ := Array.mem_iff_getElem?.mp hblock
        have := hfind (block, v) (by simpa [List.mem_zipIdx_iff_getElem?] using hv)
        simpa using this
  . rintro ⟨hcompatible, hsize, hlt⟩
    refine ⟨hcompatible, ?_⟩
    rw [if_neg (not_not.mpr hsize)]
    split
    . next block v hfind =>
      have hmem := List.mem_of_find?_eq_some hfind
      rw [List.mem_zipIdx_iff_getElem?] at hmem
      have hblock : block < model.numParts := by
        apply hlt
        simpa using List.mem_of_getElem? hmem
      have hle : model.numParts ≤ block := by simpa using List.find?_some hfind
      omega
    . rfl

theorem Admits.of_accept [Scalar α] (haccept : model.accept graph = .ok ())
    (hsize : solution.size = graph.numVertices) (hlt : ∀ block ∈ solution, block < model.numParts) :
    model.Admits graph solution := by
  unfold accept at haccept
  rw [check_bind_eq_ok] at haccept
  exact ⟨haccept.right, hsize, hlt⟩

def degreeTable (model : CostModel α) (graph : Hypergraph α) (solution : Solution) :
    Array Degrees :=
  graph.hyperedges.map fun h => .count model.numParts (h.pins.map solution.blockOf)

theorem getElem?_degreeTable {e : Nat} (he : e < graph.numHyperedges) :
    (model.degreeTable graph solution)[e]?
      =
    some (.count model.numParts ((graph.pins e).map solution.blockOf)) := by
  obtain ⟨h, _, hsome, hpins⟩ := Hypergraph.hyperedge?_of_lt he
  unfold Hypergraph.hyperedge? at hsome
  simp [degreeTable, hsome, hpins]

variable [Scalar α]

def pathScore (model : CostModel α) (graph : Hypergraph α) (p : Nat) : α :=
  (model.pathScore? graph p).getD 0

def walkCost (model : CostModel α) (graph : Hypergraph α) (f : Nat → Nat) (p : Nat) : α :=
  let runs := blockRuns ((graph.walk p).map f)
  if runs.length ≤ 1 then
    0
  else
    model.pathFactor * model.pathScore graph p * ((runs.length - 1 : Nat) : α)
      + model.snakingFactor * (returns runs : α)

def hyperedgeCost (model : CostModel α) (graph : Hypergraph α) (e : Nat) : α :=
  (model.hyperedgeCost? graph e).getD 0

def pinNormSum (model : CostModel α) (graph : Hypergraph α) (e : Nat) : α :=
  (model.pinNormSum? graph e).getD 0

def balanceTable (model : CostModel α) (graph : Hypergraph α) (solution : Solution) : Balance α :=
  (Balance.empty model.numParts graph.dimensions.vertex).load (graph.entries solution)

def costTable (model : CostModel α) (graph : Hypergraph α) (solution : Solution) : List α :=
  (List.range graph.numPaths).map (model.walkCost graph solution.blockOf)

def scoreTable (model : CostModel α) (graph : Hypergraph α) (solution : Solution) : Score α where
  cutCost := Scalar.sum (((List.range graph.numHyperedges).filter (graph.cut solution.blockOf)).map
    (model.hyperedgeCost graph))
  pathCost := Scalar.sum (model.costTable graph solution)
  balance := model.balanceTable graph solution

theorem walkCost_congr {f g : Nat → Nat} {p : Nat} (h : ∀ v ∈ graph.walk p, f v = g v) :
    model.walkCost graph f p = model.walkCost graph g p := by
  unfold walkCost
  rw [List.map_congr_left h]

theorem pathScore?_of_lt {p : Nat} (hp : p < graph.numPaths) :
    model.pathScore? graph p = some (model.pathScore graph p) := by
  obtain ⟨timing, ht, path, _, hpath, _⟩ := Hypergraph.path?_of_lt hp
  unfold pathScore pathScore?
  rw [ht]
  dsimp only
  rw [hpath]
  rfl

theorem pathCostWith?_of_found {blockOf : Nat → Option Nat} {f : Nat → Nat} {p : Nat}
    (hp : p < graph.numPaths) (hfound : ∀ v ∈ graph.walk p, blockOf v = some (f v))
    (hlt : ∀ v ∈ graph.walk p, f v < model.numParts) :
    model.pathCostWith? graph blockOf p = some (model.walkCost graph f p) := by
  obtain ⟨_, _, path, _, _, hpath, hwalk⟩ := Hypergraph.path?_of_lt hp
  unfold pathCostWith? walkCost
  rw [hwalk] at hfound hlt ⊢
  rw [hpath, some_bind, mapM_of_found hfound, some_bind,
    pathScore?_of_lt hp]
  dsimp only
  split
  . rfl
  . have hruns : (blockRuns (path.vertices.map f)).any (model.numParts ≤ ·) = false := by
      rw [List.any_eq_false]
      intro block hblock
      obtain ⟨v, hv, rfl⟩ := List.mem_map.mp (mem_of_mem_blockRuns hblock)
      have := hlt v hv
      simpa using this
    rw [hruns, some_bind]
    rfl

end CostModel

namespace Hypergraph.WellFormed

variable [Scalar α] {model : CostModel α} {graph : Hypergraph α} (hg : graph.WellFormed)

include hg

theorem hyperedgeCost?_of_lt {e : Nat} (he : e < graph.numHyperedges) :
    model.hyperedgeCost? graph e = some (model.hyperedgeCost graph e) := by
  obtain ⟨h, _, hsome, _⟩ := hyperedge?_of_lt he
  unfold CostModel.hyperedgeCost CostModel.hyperedgeCost? CostModel.hyperedgeTimingCost?
  rw [hsome]
  simp only [some_bind]
  cases hd : graph.derived? with
  | none => rfl
  | some derived =>
    unfold derived? at hd
    rw [Option.bind_eq_some_iff] at hd
    obtain ⟨timing, ht, hderived⟩ := hd
    have hsize := ((hg.timing timing ht).derived derived hderived).right
    rw [← hsize] at he
    simp [he]

theorem pinNormSum?_of_lt {e : Nat} (he : e < graph.numHyperedges) :
    model.pinNormSum? graph e = some (model.pinNormSum graph e) := by
  obtain ⟨h, _, hsome, hpins⟩ := hyperedge?_of_lt he
  have hnorms : h.pins.mapM (model.vertexNorm? graph)
      = some (h.pins.map fun v => dot model.vertexFactors (graph.weight v)) := by
    apply mapM_of_found
    intro v hv
    rw [← hpins] at hv
    obtain ⟨x, _, hx, hweight⟩ := vertex?_of_lt (hg.lt_of_mem hv)
    unfold CostModel.vertexNorm?
    rw [hx, hweight]
    rfl
  unfold CostModel.pinNormSum CostModel.pinNormSum?
  rw [hsome]
  simp [hnorms]

end Hypergraph.WellFormed

namespace CostModel.Admits

variable {model : CostModel α} {graph : Hypergraph α} {solution : Solution}
  (h : model.Admits graph solution)

include h

theorem getElem?_of_lt {v : Nat} (hv : v < graph.numVertices) :
    solution[v]? = some (solution.blockOf v) := by
  unfold Solution.blockOf
  rw [← h.size_eq] at hv
  simp [hv]

theorem blockOf_lt {v : Nat} (hv : v < graph.numVertices) :
    solution.blockOf v < model.numParts := by
  apply h.lt
  apply Array.mem_of_getElem?
  exact h.getElem?_of_lt hv

theorem zipIdx_toList : solution.toList.zipIdx
    = (List.range graph.numVertices).map fun v => (solution.blockOf v, v) := by
  apply List.ext_getElem?
  intro v
  rw [List.getElem?_zipIdx, List.getElem?_map, Array.getElem?_toList]
  cases Nat.lt_or_ge v graph.numVertices with
  | inl hv => simp [h.getElem?_of_lt hv, hv]
  | inr hv =>
    have := h.size_eq
    simp [hv, this]

variable (hg : graph.WellFormed)

include hg

theorem found_of_mem_pins {e : Nat} :
    ∀ v ∈ graph.pins e, solution[v]? = some (solution.blockOf v) := by
  intro v hv
  exact h.getElem?_of_lt (hg.lt_of_mem hv)

theorem found_of_mem_walk {p : Nat} :
    ∀ v ∈ graph.walk p, solution[v]? = some (solution.blockOf v) := by
  intro v hv
  exact h.getElem?_of_lt (hg.lt_of_mem_walk hv)

theorem blockOf_lt_of_mem_pins {e : Nat} :
    ∀ block ∈ (graph.pins e).map solution.blockOf, block < model.numParts := by
  intro block hblock
  obtain ⟨v, hv, rfl⟩ := List.mem_map.mp hblock
  exact h.blockOf_lt (hg.lt_of_mem hv)

theorem blockOf_lt_of_mem_walk {p : Nat} :
    ∀ block ∈ (graph.walk p).map solution.blockOf, block < model.numParts := by
  intro block hblock
  obtain ⟨v, hv, rfl⟩ := List.mem_map.mp hblock
  exact h.blockOf_lt (hg.lt_of_mem_walk hv)

theorem netDegrees : model.netDegrees graph solution = .ok (model.degreeTable graph solution) := by
  unfold CostModel.netDegrees degreeTable
  rw [checkSolution_eq_ok.mpr h, ok_bind, array_mapM_of_found, Failure.ofLookup_some]
  intro hyperedge hmem
  have hfound : hyperedge.pins.mapM (solution[·]?)
      = some (hyperedge.pins.map solution.blockOf) := by
    apply mapM_of_found
    intro v hv
    exact h.getElem?_of_lt (hg.pins_lt hyperedge hmem v hv)
  rw [hfound, some_bind, Degrees.ofBlocks?_eq_count]
  intro block hblock
  obtain ⟨v, hv, rfl⟩ := List.mem_map.mp hblock
  exact h.blockOf_lt (hg.pins_lt hyperedge hmem v hv)

theorem cutHyperedges : model.cutHyperedges graph solution
    = .ok ((List.range graph.numHyperedges).filter (graph.cut solution.blockOf)) := by
  unfold CostModel.cutHyperedges
  rw [checkSolution_eq_ok.mpr h, ok_bind, filterM_of_found, Failure.ofLookup_some]
  intro e he
  exact Hypergraph.isCut?_of_found (List.mem_range.mp he) (h.found_of_mem_pins hg)

theorem entries_fit : ∀ entry ∈ graph.entries solution,
    entry.1 < model.numParts ∧ entry.2.length = graph.dimensions.vertex := by
  intro entry hentry
  obtain ⟨v, hv, rfl⟩ := List.mem_map.mp hentry
  rw [List.mem_range] at hv
  exact ⟨h.blockOf_lt hv, hg.length_weight hv⟩

variable [Scalar α]

theorem pathCostWith? {p : Nat} (hp : p < graph.numPaths) :
    model.pathCostWith? graph (solution[·]?) p
      =
    some (model.walkCost graph solution.blockOf p) := by
  apply pathCostWith?_of_found hp (h.found_of_mem_walk hg)
  intro v hv
  exact h.blockOf_lt (hg.lt_of_mem_walk hv)

theorem pathCosts : model.pathCosts graph solution = .ok (model.costTable graph solution) := by
  unfold CostModel.pathCosts costTable
  rw [checkSolution_eq_ok.mpr h, ok_bind, mapM_of_found, Failure.ofLookup_some]
  intro p hp
  exact h.pathCostWith? hg (List.mem_range.mp hp)

theorem blockBalance :
    model.blockBalance graph solution = .ok (model.balanceTable graph solution) := by
  have hload := Balance.HasShape.empty.foldlM_enter? (h.entries_fit hg)
  unfold Hypergraph.entries at hload
  rw [List.foldlM_map] at hload
  unfold CostModel.blockBalance balanceTable Hypergraph.entries
  rw [checkSolution_eq_ok.mpr h, ok_bind, h.zipIdx_toList, List.foldlM_map, ← Failure.ofLookup_some,
    ← hload]
  congr 1
  apply foldlM_congr
  intro balance v hv
  obtain ⟨x, _, hx, hweight⟩ := Hypergraph.vertex?_of_lt (List.mem_range.mp hv)
  dsimp only
  rw [hx, some_bind, hweight]

theorem score : model.score graph solution = .ok (model.scoreTable graph solution) := by
  have hcosts : ((List.range graph.numHyperedges).filter (graph.cut solution.blockOf)).mapM
      (model.hyperedgeCost? graph)
      = some (((List.range graph.numHyperedges).filter (graph.cut solution.blockOf)).map
        (model.hyperedgeCost graph)) := by
    apply mapM_of_found
    intro e he
    exact hg.hyperedgeCost?_of_lt (List.mem_range.mp (List.mem_of_mem_filter he))
  unfold CostModel.score
  rw [h.cutHyperedges hg, ok_bind, hcosts, Failure.ofLookup_some, ok_bind, h.pathCosts hg, ok_bind,
    h.blockBalance hg]
  rfl

end CostModel.Admits

end CircuitPartition
