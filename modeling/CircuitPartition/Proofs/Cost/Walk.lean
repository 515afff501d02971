import CircuitPartition.Proofs.Cost.Query
import CircuitPartition.Proofs.Graph.Reachable
import Mathlib.Algebra.BigOperators.Group.Finset.Basic
import Mathlib.Data.Finset.Lattice.Fold
import Mathlib.Data.List.Destutter
import Mathlib.Data.List.SplitBy
import Mathlib.Order.Bounds.Basic
import Mathlib.Order.Lattice.Nat

/-!
Timing paths as walks through the blocks. What a path crosses and what it costs depends on how often
the block changes from one vertex to the next, and on how many separate stays a block is given.
-/

namespace CircuitPartition

def crossings (blocks : List Nat) : Nat :=
  (blocks.zip blocks.tail).countP fun (block, next) => block != next

def stays (blocks : List Nat) (block : Nat) : Nat :=
  (blocks.splitBy (· == ·)).countP (block ∈ ·)

theorem crossings_cons_cons (a b : Nat) (blocks : List Nat) :
    crossings (a :: b :: blocks) = crossings (b :: blocks) + if a = b then 0 else 1 := by
  unfold crossings
  rw [List.tail_cons, List.zip_cons_cons, List.countP_cons]
  by_cases h : a = b
  . simp [h]
  . simp [h]

theorem splitBy_cons_self {a : Nat} {blocks stretch : List Nat} {stretches : List (List Nat)}
    (h : (a :: blocks).splitBy (· == ·) = stretch :: stretches) :
    (a :: a :: blocks).splitBy (· == ·) = (a :: stretch) :: stretches ∧ a ∈ stretch := by
  obtain ⟨hflatten, hnil, hchain, hdiffer⟩ := List.splitBy_eq_iff.mp h
  cases stretch with
  | nil => simp at hnil
  | cons b stretch =>
    have hab : a = b := by simpa using congrArg List.head? hflatten
    subst hab
    refine ⟨List.splitBy_eq_iff.mpr ⟨?_, ?_, ?_, ?_⟩, List.mem_cons_self⟩
    . rw [hflatten]
      simp
    . simpa using hnil
    . rw [List.forall_mem_cons] at hchain ⊢
      refine ⟨List.isChain_cons_cons.mpr ⟨?_, hchain.left⟩, hchain.right⟩
      simp
    . cases stretches with
      | nil => simp
      | cons next stretches =>
        rw [List.isChain_cons_cons] at hdiffer ⊢
        obtain ⟨⟨_, hnext, hlast⟩, hrest⟩ := hdiffer
        refine ⟨⟨by simp, hnext, ?_⟩, hrest⟩
        simpa using hlast

theorem stays_singleton (a block : Nat) : stays [a] block = if a = block then 1 else 0 := by
  have hsplit : [a].splitBy (· == ·) = [[a]] := rfl
  unfold stays
  rw [hsplit, List.countP_singleton]
  simp [eq_comm]

theorem stays_cons_cons (a b : Nat) (blocks : List Nat) (block : Nat) :
    stays (a :: b :: blocks) block
      =
    stays (b :: blocks) block + if a = b then 0 else if a = block then 1 else 0 := by
  by_cases hab : a = b
  . subst hab
    unfold stays
    rw [if_pos rfl, Nat.add_zero]
    cases hsplit : (a :: blocks).splitBy (· == ·) with
    | nil => simp at hsplit
    | cons stretch stretches =>
      obtain ⟨hself, hmem⟩ := splitBy_cons_self hsplit
      -- The longer stretch holds no block that the shorter one does not.
      have hsame : block ∈ a :: stretch ↔ block ∈ stretch := by
        rw [List.mem_cons, or_iff_right_of_imp]
        rintro rfl
        exact hmem
      rw [hself, List.countP_cons, List.countP_cons]
      simp only [hsame]
  . have hsplit := List.splitBy_append_cons (r := (· == ·)) (l := [a]) (a := b) blocks (by simpa)
    rw [if_neg hab, ← stays_singleton, Nat.add_comm, ← List.singleton_append]
    unfold stays
    rw [hsplit, List.countP_append]

theorem blockRuns_cons (block : Nat) (blocks : List Nat) :
    ∃ runs, blockRuns (block :: blocks) = block :: runs := by
  unfold blockRuns
  split
  . exact ⟨[], rfl⟩
  . next next runs _ =>
    split
    . next heq =>
      rw [heq]
      exact ⟨runs, rfl⟩
    . exact ⟨next :: runs, rfl⟩

theorem blockRuns_cons_cons (a b : Nat) (blocks : List Nat) :
    blockRuns (a :: b :: blocks)
      =
    if a = b then blockRuns (b :: blocks) else a :: blockRuns (b :: blocks) := by
  obtain ⟨runs, hruns⟩ := blockRuns_cons b blocks
  rw [hruns, blockRuns, hruns]

theorem blockRuns_eq_destutter (blocks : List Nat) :
    blockRuns blocks = blocks.destutter (· ≠ ·) := by
  induction blocks with
  | nil => rfl
  | cons a blocks ih =>
    cases blocks with
    | nil => rfl
    | cons b blocks =>
      rw [blockRuns_cons_cons, ih, List.destutter_cons_cons, List.destutter_cons']
      by_cases h : a = b
      . subst h
        simp
      . simp [h]

theorem length_blockRuns_cons (block : Nat) (blocks : List Nat) :
    (blockRuns (block :: blocks)).length = crossings (block :: blocks) + 1 := by
  induction blocks generalizing block with
  | nil => rfl
  | cons next blocks ih =>
    rw [blockRuns_cons_cons, crossings_cons_cons]
    split
    . rw [ih, Nat.add_zero]
    . rw [List.length_cons, ih]

theorem length_blockRuns_sub_one (blocks : List Nat) :
    (blockRuns blocks).length - 1 = crossings blocks := by
  cases blocks with
  | nil => rfl
  | cons block blocks => rw [length_blockRuns_cons, Nat.add_sub_cancel]

theorem count_blockRuns (blocks : List Nat) (block : Nat) :
    (blockRuns blocks).count block = stays blocks block := by
  induction blocks with
  | nil => rfl
  | cons a blocks ih =>
    cases blocks with
    | nil =>
      rw [stays_singleton]
      simp [blockRuns, List.count_cons]
    | cons b blocks =>
      rw [blockRuns_cons_cons, stays_cons_cons]
      split
      . rw [ih, Nat.add_zero]
      . rw [List.count_cons, ih]
        simp

theorem two_mul_count_le_of_isChain {blocks : List Nat} (h : blocks.IsChain (· ≠ ·)) (block : Nat) :
    2 * blocks.count block ≤ blocks.length + 1 := by
  -- Entries that differ from their neighbours leave room for no more than every other one.
  match blocks with
  | [] => simp
  | [a] =>
    rw [List.count_singleton]
    split <;> simp
  | a :: b :: blocks =>
    rw [List.isChain_cons_cons] at h
    by_cases ha : a = block
    . subst ha
      have := two_mul_count_le_of_isChain h.right.tail a
      rw [List.count_cons_self, List.count_cons_of_ne h.left.symm]
      simp only [List.tail_cons, List.length_cons] at this ⊢
      omega
    . have := two_mul_count_le_of_isChain h.right block
      rw [List.count_cons_of_ne ha]
      simp only [List.length_cons] at this ⊢
      omega

theorem count_le_returns {runs : List Nat} (h : runs ≠ []) :
    (∃ block ∈ runs, runs.count block = returns runs + 1) ∧
      ∀ block, runs.count block ≤ returns runs + 1 := by
  cases hmax : (runs.map runs.count).max? with
  | none => simp [h] at hmax
  | some most =>
    obtain ⟨hmem, hle⟩ := List.max?_eq_some_iff.mp hmax
    obtain ⟨block, hblock, hcount⟩ := List.mem_map.mp hmem
    have hpos : 0 < runs.count block := List.count_pos_iff.mpr hblock
    have hmost : returns runs + 1 = most := by
      unfold returns
      rw [hmax, Option.getD_some]
      omega
    rw [hmost]
    refine ⟨⟨block, hblock, hcount⟩, ?_⟩
    intro other
    by_cases hother : other ∈ runs
    . exact hle _ (List.mem_map_of_mem hother)
    . rw [List.count_eq_zero.mpr hother]
      exact Nat.zero_le most

theorem isGreatest_returns {blocks : List Nat} {s : Set Nat} (hne : blocks ≠ [])
    (h : ∀ block ∈ blocks, block ∈ s) :
    IsGreatest (stays blocks '' s) (returns (blockRuns blocks) + 1) := by
  have hruns : blockRuns blocks ≠ [] := by
    rw [blockRuns_eq_destutter, ne_eq, List.destutter_eq_nil]
    exact hne
  obtain ⟨⟨block, hmem, hcount⟩, hle⟩ := count_le_returns hruns
  constructor
  . refine ⟨block, h block (mem_of_mem_blockRuns hmem), ?_⟩
    rw [← count_blockRuns, hcount]
  . rintro _ ⟨other, _, rfl⟩
    rw [← count_blockRuns]
    exact hle other

theorem two_mul_returns_le (blocks : List Nat) :
    2 * returns (blockRuns blocks) ≤ crossings blocks := by
  -- Between two stays in a block, a walk leaves it and comes back.
  cases blocks with
  | nil => rfl
  | cons block blocks =>
    have hlength := length_blockRuns_cons block blocks
    have hchain : (blockRuns (block :: blocks)).IsChain (· ≠ ·) := by
      rw [blockRuns_eq_destutter]
      apply List.isChain_destutter
    obtain ⟨⟨most, _, hcount⟩, _⟩ := count_le_returns (List.ne_nil_of_length_eq_add_one hlength)
    have := two_mul_count_le_of_isChain hchain most
    omega

theorem crossings_cons_eq_zero {block : Nat} {blocks : List Nat} :
    crossings (block :: blocks) = 0 ↔ ∀ next ∈ blocks, next = block := by
  induction blocks generalizing block with
  | nil => simp [crossings]
  | cons next blocks ih =>
    rw [crossings_cons_cons, Nat.add_eq_zero_iff, ih, List.forall_mem_cons]
    by_cases h : block = next
    . simp [h]
    . simp [h, Ne.symm h]

theorem crossings_eq_zero_iff {blocks : List Nat} :
    crossings blocks = 0 ↔ ∀ a ∈ blocks, ∀ b ∈ blocks, a = b := by
  cases blocks with
  | nil => simp [crossings]
  | cons block blocks =>
    rw [crossings_cons_eq_zero]
    constructor
    . intro h
      have hall : ∀ a ∈ block :: blocks, a = block := List.forall_mem_cons.mpr ⟨rfl, h⟩
      intro a ha b hb
      rw [hall a ha, hall b hb]
    . intro h next hnext
      exact h next (List.mem_cons_of_mem block hnext) block List.mem_cons_self

open Finset (range)

theorem sum_map_range_nat (n : Nat) (f : Nat → Nat) :
    ((List.range n).map f).sum = ∑ i ∈ range n, f i := by
  rfl

theorem max?_map_range (n : Nat) (f : Nat → Nat) :
    ((List.range n).map f).max?.getD 0 = (range n).sup f := by
  apply eq_of_forall_ge_iff
  intro c
  rw [Finset.sup_le_iff]
  cases hmax : ((List.range n).map f).max? with
  | none =>
    have hzero : n = 0 := by simpa using hmax
    simp [hzero]
  | some most =>
    rw [Option.getD_some, List.max?_le_iff hmax]
    simp

variable {α : Type}

namespace Hypergraph

variable (graph : Hypergraph α)

def crossings (f : Nat → Nat) (p : Nat) : Nat :=
  CircuitPartition.crossings ((graph.walk p).map f)

theorem crossings_eq_zero_iff {f : Nat → Nat} {p : Nat} :
    graph.crossings f p = 0 ↔ ∀ u ∈ graph.walk p, ∀ v ∈ graph.walk p, f u = f v := by
  unfold crossings
  rw [CircuitPartition.crossings_eq_zero_iff, List.forall_mem_map]
  simp only [List.forall_mem_map]

theorem map_walk_range :
    (List.range graph.numPaths).map graph.walk
      =
    ((graph.timing.map (·.paths.toList)).getD []).map (·.vertices) := by
  apply List.ext_getElem?
  intro p
  cases ht : graph.timing with
  | none => simp [numPaths, ht]
  | some timing =>
    cases Nat.lt_or_ge p timing.paths.size with
    | inl hp => simp [numPaths, walk, path?, ht, hp]
    | inr hp => simp [numPaths, ht, hp]

def timingTable [Scalar α] (solution : Solution) : TimingCuts α :=
  let total := ∑ p ∈ range graph.numPaths, graph.crossings solution.blockOf p
  { total
    worst := (range graph.numPaths).sup (graph.crossings solution.blockOf)
    average := if graph.numPaths = 0 then 0 else (total : α) / (graph.numPaths : α) }

end Hypergraph

variable {model : CostModel α} {graph : Hypergraph α} {solution : Solution}

namespace CostModel.Admits

variable (h : model.Admits graph solution) (hg : graph.WellFormed)

include h hg

theorem mapM_crossings :
    (((graph.timing.map (·.paths.toList)).getD []).mapM fun path => do
      return (blockRuns (← path.vertices.mapM (solution[·]?))).length - 1)
      =
    some ((List.range graph.numPaths).map (graph.crossings solution.blockOf)) := by
  have hcounts := congrArg (List.map fun walk => crossings (walk.map solution.blockOf))
    graph.map_walk_range
  rw [List.map_map, List.map_map] at hcounts
  refine Eq.trans (mapM_of_found ?_) (congrArg some hcounts.symm)
  intro path hpath
  have hmem := List.mem_map_of_mem (f := (·.vertices)) hpath
  rw [← Hypergraph.map_walk_range, List.mem_map] at hmem
  obtain ⟨p, _, hwalk⟩ := hmem
  have hfound := h.found_of_mem_walk hg (p := p)
  rw [hwalk] at hfound
  rw [mapM_of_found hfound, some_bind, length_blockRuns_sub_one]
  rfl

variable [Scalar α]

theorem timingCuts : model.timingCuts graph solution = .ok (graph.timingTable solution) := by
  have hlength := congrArg List.length graph.map_walk_range
  rw [List.length_map, List.length_map, List.length_range] at hlength
  unfold CostModel.timingCuts
  rw [checkSolution_eq_ok.mpr h, ok_bind]
  dsimp only
  rw [h.mapM_crossings hg, Failure.ofLookup_some, ok_bind, max?_map_range, ← List.sum_eq_foldl,
    sum_map_range_nat, pure_eq_ok]
  unfold Hypergraph.timingTable
  rw [hlength]
  simp only [List.isEmpty_iff_length_eq_zero]

theorem pathCost {p : Nat} (hp : p < graph.numPaths) :
    model.pathCost graph p solution = .ok (model.walkCost graph solution.blockOf p) := by
  unfold CostModel.pathCost
  rw [if_neg (by omega), checkSolution_eq_ok.mpr h, ok_bind, h.pathCostWith? hg hp,
    Failure.ofLookup_some]

end CostModel.Admits

variable [Scalar α]

namespace CostModel

theorem walkCost_eq (model : CostModel α) (graph : Hypergraph α) (f : Nat → Nat) (p : Nat) :
    model.walkCost graph f p
      =
    if graph.crossings f p = 0 then
      0
    else
      model.pathFactor * model.pathScore graph p * (graph.crossings f p : α)
        + model.snakingFactor * (returns (blockRuns ((graph.walk p).map f)) : α) := by
  unfold walkCost Hypergraph.crossings
  rw [← length_blockRuns_sub_one]
  simp only [Nat.sub_eq_zero_iff_le]

theorem timingCuts_and_pathCost (hgraph : graph.Reachable) (h : model.Admits graph solution) :
    (∃ average, model.timingCuts graph solution
      = .ok {
        total := ∑ p ∈ range graph.numPaths, graph.crossings solution.blockOf p
        worst := (range graph.numPaths).sup (graph.crossings solution.blockOf)
        average }) ∧
    ∀ p < graph.numPaths, ∃ score r,
      let blocks := (graph.walk p).map solution.blockOf
      (blockRuns blocks).length - 1 = crossings blocks ∧
      model.pathScore? graph p = some score ∧
      IsGreatest (stays blocks '' Set.Iio model.numParts) (r + 1) ∧
      2 * r ≤ crossings blocks ∧
      ((∀ u ∈ graph.walk p, ∀ v ∈ graph.walk p, solution.blockOf u = solution.blockOf v) →
        model.pathCost graph p solution = .ok 0) ∧
      ((∃ u ∈ graph.walk p, ∃ v ∈ graph.walk p, solution.blockOf u ≠ solution.blockOf v) →
        model.pathCost graph p solution
          = .ok (model.pathFactor * score * (crossings blocks : α)
            + model.snakingFactor * (r : α))) := by
  have hg := hgraph.wellFormed
  refine ⟨⟨_, h.timingCuts hg⟩, ?_⟩
  intro p hp
  obtain ⟨timing, ht, path, hpath, _, _, hwalk⟩ := Hypergraph.path?_of_lt hp
  have hne : (graph.walk p).map solution.blockOf ≠ [] := by
    rw [hwalk, ne_eq, List.map_eq_nil_iff]
    exact ((hg.timing timing ht).path_vertices path hpath).left
  have hcost := h.pathCost hg hp
  rw [walkCost_eq] at hcost
  have hgreatest := isGreatest_returns hne (h.blockOf_lt_of_mem_walk hg)
  refine ⟨_, _, length_blockRuns_sub_one _, pathScore?_of_lt hp, hgreatest, two_mul_returns_le _,
    ?_, ?_⟩
  . intro hsame
    rw [hcost, if_pos (graph.crossings_eq_zero_iff.mpr hsame)]
  . rintro ⟨u, hu, v, hv, hne⟩
    rw [hcost, if_neg]
    . rfl
    . intro hzero
      exact hne (graph.crossings_eq_zero_iff.mp hzero u hu v hv)

theorem timingCuts_and_pathCost_chain :
    Hypergraph.chain.Reachable ∧ CostModel.standard.Admits Hypergraph.chain #[0, 1, 0] ∧
      (∃ average, CostModel.standard.timingCuts Hypergraph.chain #[0, 1, 0]
        = .ok ⟨2, 2, average⟩) ∧
      ∃ score r, CostModel.standard.pathScore? Hypergraph.chain 0 = some score ∧
        IsGreatest (stays [0, 1, 0] '' Set.Iio 2) (r + 1) ∧ 2 * r ≤ 2 ∧
        CostModel.standard.pathCost Hypergraph.chain 0 #[0, 1, 0]
          = .ok (1 * score * 2 + 1 * (r : ℚ)) := by
  have h : CostModel.standard.Admits Hypergraph.chain #[0, 1, 0] := checkSolution_eq_ok.mp rfl
  obtain ⟨hcuts, hpaths⟩ := timingCuts_and_pathCost Hypergraph.reachable_chain h
  obtain ⟨score, r, _, hscore, hgreatest, hle, _, hcost⟩ := hpaths 0 (by decide)
  refine ⟨Hypergraph.reachable_chain, h, hcuts, score, r, hscore, hgreatest, hle, ?_⟩
  exact hcost ⟨0, by decide, 1, by decide, by decide⟩

end CostModel

end CircuitPartition
