import CircuitPartition.Partition.State
import CircuitPartition.Proofs.Cost.Query

/-!
Moving a vertex keeps degrees and balance in step with the solution, and refreshing the paths whose
vertices have moved brings the path costs back in step.
-/

namespace CircuitPartition

def Solution.gather (solution : Solution) (vertices : List Nat) (target : Nat) : Solution :=
  vertices.foldl (·.set! · target) solution

namespace Solution

variable {solution : Solution} {v u target : Nat}

theorem blockOf_set! (hv : v < solution.size) :
    blockOf (solution.set! v target) u = if u = v then target else solution.blockOf u := by
  unfold blockOf
  rw [Array.set!_eq_setIfInBounds, Array.getElem?_setIfInBounds]
  by_cases h : u = v
  . subst h
    simp [hv]
  . have : v ≠ u := fun heq => h heq.symm
    simp [h, this]

theorem blockOf_gather {vertices : List Nat} (h : ∀ v ∈ vertices, v < solution.size) :
    (solution.gather vertices target).blockOf u
      =
    if u ∈ vertices then target else solution.blockOf u := by
  unfold gather
  induction vertices generalizing solution with
  | nil => simp
  | cons v vertices ih =>
    rw [List.forall_mem_cons] at h
    rw [List.foldl_cons, ih, blockOf_set! h.left]
    . by_cases hu : u = v
      . simp [hu]
      . simp [hu]
    . simpa using h.right

end Solution

variable {α : Type}

namespace CostModel.Admits

variable {model : CostModel α} {graph : Hypergraph α} {solution : Solution}
  (h : model.Admits graph solution)

include h

theorem set! (v : Nat) {target : Nat} (ht : target < model.numParts) :
    model.Admits graph (solution.set! v target) := by
  constructor
  . exact h.compatible
  . simpa using h.size_eq
  . exact forall_mem_set! h.lt ht v

theorem gather (vertices : List Nat) {target : Nat} (ht : target < model.numParts) :
    model.Admits graph (solution.gather vertices target) := by
  unfold Solution.gather
  induction vertices generalizing solution with
  | nil => exact h
  | cons v vertices ih => exact ih (h.set! v ht)

theorem ext {other : Solution} (hother : model.Admits graph other)
    (heq : ∀ v < graph.numVertices, solution.blockOf v = other.blockOf v) : solution = other := by
  apply Array.ext_getElem?
  intro v
  cases Nat.lt_or_ge v graph.numVertices with
  | inl hv => rw [h.getElem?_of_lt hv, hother.getElem?_of_lt hv, heq v hv]
  | inr hv => rw [Array.getElem?_eq_none (by rw [h.size_eq]; exact hv),
      Array.getElem?_eq_none (by rw [hother.size_eq]; exact hv)]

end CostModel.Admits

theorem exists_perm_cons_map {β : Type} {ns : List Nat} {v : Nat} (hnodup : ns.Nodup) (hv : v ∈ ns)
    {f g : Nat → β} (h : ∀ u, u ≠ v → g u = f u) :
    ∃ rest, (ns.map f).Perm (f v :: rest) ∧ (ns.map g).Perm (g v :: rest) := by
  have hperm := List.perm_cons_erase hv
  refine ⟨(ns.erase v).map f, hperm.map f, ?_⟩
  have hrest : (ns.erase v).map g = (ns.erase v).map f := by
    apply List.map_congr_left
    intro u hu
    apply h
    rintro rfl
    exact hnodup.not_mem_erase hu
  rw [← hrest]
  exact hperm.map g

theorem getElem?_set! {β : Type} {bs : Array β} {i : Nat} (hi : i < bs.size) (b : β) (j : Nat) :
    (bs.set! i b)[j]? = if i = j then some b else bs[j]? := by
  rw [Array.set!_eq_setIfInBounds, Array.getElem?_setIfInBounds]
  simp [hi]

namespace PartitionState

open CostModel

variable {graph : Hypergraph α} {model : CostModel α} {solution : Solution} {v target : Nat}

section Count

variable {counting : Counting} (hg : graph.WellFormed) (hs : model.Admits graph solution)
  (hcovers : counting.Covers graph.numVertices) (ht : target < model.numParts)

include hg hs hcovers ht

theorem movePin_of_mem {e : Nat} (he : v ∈ graph.pins e) {table : Array Degrees}
    (htable : table[e]? = some (.count model.numParts ((graph.pins e).map solution.blockOf))) :
    counting.movePin (solution.blockOf v) target table e
      =
    .ok (table.set! e
      (.count model.numParts ((graph.pins e).map (Solution.blockOf (solution.set! v target))))) := by
  have hv := hg.lt_of_mem he
  have hlt : v < solution.size := by
    rw [hs.size_eq]
    exact hv
  have hne : ∀ u, u ≠ v → Solution.blockOf (solution.set! v target) u = solution.blockOf u := by
    intro u hu
    rw [Solution.blockOf_set! hlt, if_neg hu]
  -- Both rows count the same blocks, but for that of the vertex, which is brought to the front.
  obtain ⟨rest, hbefore, hafter⟩ := exists_perm_cons_map (hg.nodup_pins e) he hne
  rw [Solution.blockOf_set! hlt, if_pos rfl] at hafter
  rw [Degrees.count_perm hbefore] at htable
  rw [Degrees.count_perm hafter]
  have hroom : counting.Covers (rest.length + 1) := by
    apply hcovers.mono
    have := hbefore.length_eq
    have := hg.length_pins_le e
    simp_all
  unfold Counting.movePin
  rw [htable, Fault.liftM_some, ok_bind, Degrees.leave_count counting (hs.blockOf_lt hv), ok_bind,
    Degrees.enter_count ht hroom]
  rfl

theorem foldlM_movePin {es : List Nat} (hnodup : es.Nodup)
    (hes : ∀ e ∈ es, v ∈ graph.pins e) {table : Array Degrees}
    (htable : ∀ e ∈ es, table[e]? = (model.degreeTable graph solution)[e]?) :
    ∃ next, es.foldlM (counting.movePin (solution.blockOf v) target) table = .ok next ∧
      ∀ e, next[e]?
        =
      if e ∈ es then (model.degreeTable graph (solution.set! v target))[e]? else table[e]? := by
  induction es generalizing table with
  | nil => exact ⟨table, rfl, by simp⟩
  | cons e es ih =>
    rw [List.nodup_cons] at hnodup
    rw [List.forall_mem_cons] at hes htable
    have hrow := htable.left
    rw [getElem?_degreeTable (Hypergraph.lt_of_mem_pins hes.left)] at hrow
    have hlt := (Array.getElem?_eq_some_iff.mp hrow).1
    have hstep := movePin_of_mem hg hs hcovers ht hes.left hrow
    -- No hyperedge is listed twice, so the rows of those to come are still as they were.
    have hrest : ∀ e' ∈ es, (table.set! e (.count model.numParts
        ((graph.pins e).map (Solution.blockOf (solution.set! v target)))))[e']?
          = (model.degreeTable graph solution)[e']? := by
      intro e' he'
      have hne : e ≠ e' := by
        rintro rfl
        exact hnodup.left he'
      rw [getElem?_set! hlt, if_neg hne]
      exact htable.right e' he'
    obtain ⟨next, hfold, hlookup⟩ := ih hnodup.right hes.right hrest
    refine ⟨next, ?_, ?_⟩
    . rw [List.foldlM_cons, hstep, ok_bind, hfold]
    . intro e'
      rw [hlookup e']
      by_cases heq : e = e'
      . subst heq
        rw [if_neg hnodup.left, if_pos List.mem_cons_self, getElem?_set! hlt, if_pos rfl,
          getElem?_degreeTable (Hypergraph.lt_of_mem_pins hes.left)]
      . rw [getElem?_set! hlt, if_neg heq]
        have hne : e' ≠ e := fun h => heq h.symm
        simp only [List.mem_cons, hne, false_or]

theorem foldlM_movePin_incident (hv : v < graph.numVertices) :
    (graph.incident v).foldlM (counting.movePin (solution.blockOf v) target)
        (model.degreeTable graph solution)
      =
    .ok (model.degreeTable graph (solution.set! v target)) := by
  have hes : ∀ e ∈ graph.incident v, v ∈ graph.pins e := by
    intro e he
    exact (hg.mem_incident hv).mp he
  have htable : ∀ e ∈ graph.incident v, (model.degreeTable graph solution)[e]?
      = (model.degreeTable graph solution)[e]? := fun _ _ => rfl
  obtain ⟨next, hfold, hlookup⟩ := foldlM_movePin hg hs hcovers ht (hg.nodup_incident v) hes htable
  rw [hfold, Except.ok.injEq]
  apply Array.ext_getElem?
  intro e
  rw [hlookup e]
  split
  . rfl
  . next hmem =>
    -- The row is not touched, and need not be: the vertex is no pin of its hyperedge.
    cases Nat.lt_or_ge e graph.numHyperedges with
    | inl he =>
      rw [getElem?_degreeTable he, getElem?_degreeTable he]
      congr 2
      apply List.map_congr_left
      intro u hu
      have hne : u ≠ v := by
        rintro rfl
        exact hmem ((hg.mem_incident hv).mpr hu)
      rw [Solution.blockOf_set! (by rw [hs.size_eq]; exact hv), if_neg hne]
    | inr he =>
      unfold Hypergraph.numHyperedges at he
      simp [degreeTable, he]

end Count

end PartitionState

end CircuitPartition
