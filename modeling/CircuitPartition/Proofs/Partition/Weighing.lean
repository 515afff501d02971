import CircuitPartition.Proofs.Partition.Tracks
import CircuitPartition.Proofs.Whole

/-!
Balances of whole weights. If these sum to less than `2 ^ 53`, a block weighs exactly what its
vertices weigh together, whichever way they have come there.
-/

namespace CircuitPartition

section Rows

variable {α β : Type} [Scalar α] (indices : List β) (f g : β → α)

theorem addOnto_map : addOnto (indices.map f) (indices.map g) = indices.map fun i => f i + g i := by
  induction indices with
  | nil => rfl
  | cons i indices ih =>
    rw [List.map_cons, List.map_cons, List.map_cons, addOnto, ih]

theorem takeOff_map : takeOff (indices.map f) (indices.map g) = indices.map fun i => f i - g i := by
  induction indices with
  | nil => rfl
  | cons i indices ih =>
    rw [List.map_cons, List.map_cons, List.map_cons, takeOff, ih]

end Rows

def heap (w : Nat → Nat → ℤ) (vertices : Finset Nat) (blockOf : Nat → Nat) (block d : Nat) : ℤ :=
  ∑ v ∈ vertices, if blockOf v = block then w v d else 0

theorem heap_insert (w : Nat → Nat → ℤ) {v : Nat} {vertices : Finset Nat} (hv : v ∉ vertices)
    (blockOf : Nat → Nat) (block d : Nat) :
    heap w (insert v vertices) blockOf block d
      =
    (if blockOf v = block then w v d else 0) + heap w vertices blockOf block d :=
  Finset.sum_insert hv

def heaps (w : Nat → Nat → ℤ) (rows columns : Nat) (vertices : Finset Nat) (blockOf : Nat → Nat) :
    Balance Double :=
  (Array.range rows).map fun block =>
    (List.range columns).map fun d => .whole (heap w vertices blockOf block d)

theorem getElem?_heaps (w : Nat → Nat → ℤ) (rows columns : Nat) (vertices : Finset Nat)
    (blockOf : Nat → Nat) (block : Nat) :
    (heaps w rows columns vertices blockOf)[block]?
      =
    if block < rows then
      some ((List.range columns).map fun d => .whole (heap w vertices blockOf block d))
    else
      none := by
  unfold heaps
  split
  . next h => simp [h]
  . next h => simp [h]

theorem modify_heaps {w : Nat → Nat → ℤ} {columns : Nat} {vertices others : Finset Nat}
    {blockOf : Nat → Nat} {changed : Nat} {f : List Double → List Double}
    (hrow : f ((List.range columns).map fun d => .whole (heap w vertices blockOf changed d))
      = (List.range columns).map fun d => .whole (heap w others blockOf changed d))
    (hsame : ∀ block, changed ≠ block → ∀ d,
      heap w vertices blockOf block d = heap w others blockOf block d) (rows : Nat) :
    (heaps w rows columns vertices blockOf).modify changed f
      =
    heaps w rows columns others blockOf := by
  apply Array.ext_getElem?
  intro block
  rw [Array.getElem?_modify, getElem?_heaps, getElem?_heaps]
  by_cases hblock : block < rows
  . rw [if_pos hblock, if_pos hblock]
    split
    . next heq =>
      subst heq
      rw [Option.map_some, hrow]
    . next hne => simp only [hsame block hne]
  . rw [if_neg hblock, if_neg hblock]
    simp

theorem heaps_congr {w : Nat → Nat → ℤ} {rows columns : Nat} {vertices : Finset Nat}
    {f g : Nat → Nat} (h : ∀ v ∈ vertices, f v = g v) :
    heaps w rows columns vertices f = heaps w rows columns vertices g := by
  have hheap (block d : Nat) : heap w vertices f block d = heap w vertices g block d := by
    apply Finset.sum_congr rfl
    intro v hv
    rw [h v hv]
  unfold heaps
  simp only [hheap]

namespace Hypergraph

structure Weighs (graph : Hypergraph Double) (w : Nat → Nat → ℤ) : Prop where
  weight_eq : ∀ v < graph.numVertices,
    graph.weight v = (List.range graph.dimensions.vertex).map fun d => .whole (w v d)
  sum_lt : ∀ d < graph.dimensions.vertex,
    ∑ v ∈ Finset.range graph.numVertices, (w v d).natAbs < 2 ^ 53

namespace Weighs

variable {graph : Hypergraph Double} {w : Nat → Nat → ℤ} (h : graph.Weighs w)

include h

theorem natAbs_heap_lt {vertices : Finset Nat} (hsub : vertices ⊆ Finset.range graph.numVertices)
    (blockOf : Nat → Nat) (block : Nat) {d : Nat} (hd : d < graph.dimensions.vertex) :
    (heap w vertices blockOf block d).natAbs < 2 ^ 53 := by
  apply Nat.lt_of_le_of_lt _ (h.sum_lt d hd)
  calc (heap w vertices blockOf block d).natAbs
      ≤ ∑ v ∈ vertices, (if blockOf v = block then w v d else 0).natAbs := Int.natAbs_sum_le _ _
    _ ≤ ∑ v ∈ vertices, (w v d).natAbs := by
      apply Finset.sum_le_sum
      intro v _
      split
      . exact le_refl _
      . simp
    _ ≤ ∑ v ∈ Finset.range graph.numVertices, (w v d).natAbs := Finset.sum_le_sum_of_subset hsub

theorem natAbs_lt {v d : Nat} (hv : v < graph.numVertices) (hd : d < graph.dimensions.vertex) :
    (w v d).natAbs < 2 ^ 53 := by
  have hsub : {v} ⊆ Finset.range graph.numVertices := by simpa using hv
  have := h.natAbs_heap_lt hsub id v hd
  simpa [heap] using this

variable {v : Nat} {vertices : Finset Nat} (hv : v ∉ vertices)
  (hsub : insert v vertices ⊆ Finset.range graph.numVertices) (rows : Nat) (blockOf : Nat → Nat)

include hv hsub

theorem modify_addOnto_heaps :
    (heaps w rows graph.dimensions.vertex vertices blockOf).modify (blockOf v)
        (addOnto · (graph.weight v))
      =
    heaps w rows graph.dimensions.vertex (insert v vertices) blockOf := by
  obtain ⟨hlt, hrest⟩ := Finset.insert_subset_iff.mp hsub
  rw [Finset.mem_range] at hlt
  apply modify_heaps
  . rw [h.weight_eq v hlt, addOnto_map]
    apply List.map_congr_left
    intro d hd
    rw [List.mem_range] at hd
    have hsum := heap_insert w hv blockOf (blockOf v) d
    rw [if_pos rfl, add_comm] at hsum
    have hbound := h.natAbs_heap_lt hsub blockOf (blockOf v) hd
    rw [hsum] at hbound ⊢
    exact Double.whole_add (h.natAbs_heap_lt hrest blockOf _ hd) (h.natAbs_lt hlt hd) hbound
  . intro block hne d
    rw [heap_insert w hv, if_neg hne, zero_add]

theorem modify_takeOff_heaps :
    (heaps w rows graph.dimensions.vertex (insert v vertices) blockOf).modify (blockOf v)
        (takeOff · (graph.weight v))
      =
    heaps w rows graph.dimensions.vertex vertices blockOf := by
  obtain ⟨hlt, hrest⟩ := Finset.insert_subset_iff.mp hsub
  rw [Finset.mem_range] at hlt
  apply modify_heaps
  . rw [h.weight_eq v hlt, takeOff_map]
    apply List.map_congr_left
    intro d hd
    rw [List.mem_range] at hd
    have hdifference : heap w (insert v vertices) blockOf (blockOf v) d - w v d
        = heap w vertices blockOf (blockOf v) d := by
      rw [heap_insert w hv, if_pos rfl, add_sub_cancel_left]
    rw [Double.whole_sub (h.natAbs_heap_lt hsub blockOf _ hd) (h.natAbs_lt hlt hd), hdifference]
    rw [hdifference]
    exact h.natAbs_heap_lt hrest blockOf _ hd
  . intro block hne d
    rw [heap_insert w hv, if_neg hne, zero_add]

end Weighs

end Hypergraph

namespace CostModel

variable {model : CostModel Double} {graph : Hypergraph Double} {w : Nat → Nat → ℤ}
  (h : graph.Weighs w)

include h

variable (model) in
theorem balanceTable_eq_heaps (solution : Solution) :
    model.balanceTable graph solution
      =
    heaps w model.numParts graph.dimensions.vertex (Finset.range graph.numVertices)
      solution.blockOf := by
  have hload : ∀ n ≤ graph.numVertices,
      (Balance.empty model.numParts graph.dimensions.vertex).load
          ((List.range n).map fun v => (solution.blockOf v, graph.weight v))
        =
      heaps w model.numParts graph.dimensions.vertex (Finset.range n) solution.blockOf := by
    intro n hn
    induction n with
    | zero =>
      have hzero : (0 : Double) = .whole 0 := by decide
      apply Array.ext_getElem?
      intro block
      rw [getElem?_heaps]
      simp [Balance.load, Balance.empty, heap, hzero, Array.getElem?_replicate]
    | succ n ih =>
      have hload := ih (by omega)
      unfold Balance.load at hload ⊢
      rw [List.range_succ, List.map_append, List.foldl_append, hload, Finset.range_add_one]
      apply h.modify_addOnto_heaps Finset.notMem_range_self
      rw [← Finset.range_add_one]
      exact Finset.range_subset_range.mpr hn
  exact hload _ (le_refl _)

theorem Admits.shift_balanceTable_of_weighs {solution : Solution} (hs : model.Admits graph solution)
    {v : Nat} (hv : v < graph.numVertices) (target : Nat) :
    (model.balanceTable graph solution).shift (solution.blockOf v) target (graph.weight v)
      =
    model.balanceTable graph (solution.set! v target) := by
  have hlt : v < solution.size := by
    rw [hs.size_eq]
    exact hv
  unfold Balance.shift
  split
  . next heq => rw [← heq, Solution.set!_blockOf hlt]
  . next hne =>
    have hinsert : insert v ((Finset.range graph.numVertices).erase v)
        = Finset.range graph.numVertices :=
      Finset.insert_erase (Finset.mem_range.mpr hv)
    have hmem : v ∉ (Finset.range graph.numVertices).erase v := Finset.notMem_erase v _
    have htarget : Solution.blockOf (solution.set! v target) v = target := by
      rw [Solution.blockOf_set! hlt, if_pos rfl]
    have hothers : ∀ u ∈ (Finset.range graph.numVertices).erase v,
        solution.blockOf u = Solution.blockOf (solution.set! v target) u := by
      intro u hu
      rw [Solution.blockOf_set! hlt, if_neg (Finset.ne_of_mem_erase hu)]
    have hleft := h.modify_takeOff_heaps hmem (by rw [hinsert]) model.numParts solution.blockOf
    have hentered := h.modify_addOnto_heaps hmem (by rw [hinsert]) model.numParts
      (Solution.blockOf (solution.set! v target))
    rw [hinsert] at hleft hentered
    rw [htarget] at hentered
    rw [balanceTable_eq_heaps model h, balanceTable_eq_heaps model h, hleft, heaps_congr hothers,
      hentered]

end CostModel

end CircuitPartition
