import CircuitPartition.Proofs.Refine.Price

/-!
A move is checked once, on the summed weight of the pins that it brings. With exact addition that
says just what the target block will weigh after they have come one by one.
-/

namespace CircuitPartition

variable {α : Type} [Scalar α]

def withinBound (row bound : List α) : Bool :=
  (row.zip bound).all fun (weight, limit) => weight ≤ limit

theorem fits_eq_withinBound {current incoming : List α} (h : current.length = incoming.length)
    (bound : List α) :
    CostModel.fits current incoming bound = withinBound (addOnto current incoming) bound := by
  induction current generalizing incoming bound with
  | nil => rfl
  | cons weight current ih =>
    cases incoming with
    | nil => simp at h
    | cons extra incoming =>
      cases bound with
      | nil => rfl
      | cons limit bound =>
        have := ih (Nat.succ.inj h) bound
        unfold CostModel.fits withinBound at this ⊢
        simp only [addOnto, List.zip_cons_cons, List.all_cons, this]

theorem length_foldl_addOnto (rows : List (List α)) (row : List α) :
    (rows.foldl addOnto row).length = row.length := by
  induction rows generalizing row with
  | nil => rfl
  | cons r rows ih => rw [List.foldl_cons, ih, length_addOnto]

section Exact

variable [ExactAddition α]

theorem addOnto_replicate_zero (row : List α) :
    addOnto row (List.replicate row.length 0) = row := by
  induction row with
  | nil => rfl
  | cons weight row ih =>
    rw [List.length_cons, List.replicate_succ, addOnto, ih, ExactAddition.add_comm,
      ExactAddition.zero_add]

theorem foldl_addOnto_eq {rows : List (List α)} {row : List α}
    (h : ∀ r ∈ rows, r.length = row.length) :
    rows.foldl addOnto row = addOnto row (rows.foldl addOnto (List.replicate row.length 0)) := by
  induction rows with
  | nil => rw [List.foldl_nil, List.foldl_nil, addOnto_replicate_zero]
  | cons r rows ih =>
    rw [List.forall_mem_cons] at h
    have hlength : r.length
        ≤ (rows.foldl addOnto (List.replicate row.length 0)).length := by
      rw [length_foldl_addOnto, List.length_replicate, h.left]
    rw [List.foldl_cons, List.foldl_cons, Balance.foldl_addOnto_addOnto,
      Balance.foldl_addOnto_addOnto, ih h.right, addOnto_assoc _ _ _ hlength]

end Exact

theorem Balance.getElem?_shift_target {balance : Balance α} {source target : Nat}
    (h : source ≠ target) (weight : List α) :
    (balance.shift source target weight)[target]? = balance[target]?.map (addOnto · weight) := by
  unfold Balance.shift
  rw [if_neg h, Array.getElem?_modify, if_pos rfl, Array.getElem?_modify, if_neg h]

namespace PartitionState

variable {model : CostModel α} {graph : Hypergraph α} {state : PartitionState α} {target : Nat}

theorem getElem?_blockBalance_gathered {vertices : List Nat} (hnodup : vertices.Nodup)
    (hlt : ∀ v ∈ vertices, v < state.solution.size)
    (hne : ∀ v ∈ vertices, state.solution.blockOf v ≠ target) :
    (state.gathered model graph vertices target).blockBalance[target]?
      =
    state.blockBalance[target]?.map ((vertices.map graph.weight).foldl addOnto ·) := by
  unfold gathered
  induction vertices generalizing state with
  | nil => simp
  | cons v vertices ih =>
    rw [List.nodup_cons] at hnodup
    rw [List.forall_mem_cons] at hlt hne
    -- The vertices to come are others, so none of them is in the target block yet.
    have hstay : ∀ u ∈ vertices, Solution.blockOf (state.solution.set! v target) u ≠ target := by
      intro u hu
      have huv : u ≠ v := by
        rintro rfl
        exact hnodup.left hu
      rw [Solution.blockOf_set! hlt.left, if_neg huv]
      exact hne.right u hu
    rw [List.foldl_cons, ih hnodup.right _ hstay]
    . unfold moved
      dsimp only
      rw [Balance.getElem?_shift_target hne.left]
      cases state.blockBalance[target]? with
      | none => rfl
      | some row => rfl
    . intro u hu
      have := hlt.right u hu
      simpa [moved] using this

theorem InStep.legal_eq [ExactAddition α] (h : state.InStep model graph) (hg : graph.WellFormed)
    (bounds : Balance α) (e : Nat) (ht : target < model.numParts) :
    CostModel.legal graph bounds state e target
      =
    withinBound ((state.committed model graph e target).blockBalance[target]?.getD [])
      (bounds[target]?.getD []) := by
  obtain ⟨row, hrow, hlength⟩ := h.hasShape.getElem?_of_lt ht
  have hweights : ∀ r ∈ (graph.movers state.solution e target).map graph.weight,
      r.length = row.length := by
    intro r hr
    obtain ⟨v, hv, rfl⟩ := List.mem_map.mp hr
    rw [hg.length_weight (hg.lt_of_mem_movers v hv), hlength]
  have htarget : (state.committed model graph e target).blockBalance[target]?
      = state.blockBalance[target]?.map
        (((graph.movers state.solution e target).map graph.weight).foldl addOnto ·) := by
    apply getElem?_blockBalance_gathered
    . exact (hg.nodup_pins e).filter _
    . rw [h.admits.size_eq]
      exact hg.lt_of_mem_movers
    . intro v hv
      exact (Hypergraph.mem_movers.mp hv).right
  rw [htarget, hrow, Option.map_some, Option.getD_some, foldl_addOnto_eq hweights, hlength]
  unfold CostModel.legal CostModel.incoming
  rw [hrow, Option.getD_some]
  apply fits_eq_withinBound
  rw [length_foldl_addOnto, List.length_replicate, hlength]

end PartitionState

end CircuitPartition
