import CircuitPartition.Proofs.Graph.Reachable
import CircuitPartition.Proofs.Refine.Legality
import CircuitPartition.Proofs.Refine.Run

/-!
With weights that are not negative, refinement fills no block beyond its bound, and makes no block
heavier that was over its bound from the start.
-/

namespace CircuitPartition

variable {α : Type}

section Entries

variable [Scalar α]

theorem nil_addOnto (weights : List α) : addOnto [] weights = [] := by
  cases weights with
  | nil => rfl
  | cons w weights => rfl

theorem nil_takeOff (weights : List α) : takeOff [] weights = [] := by
  cases weights with
  | nil => rfl
  | cons w weights => rfl

def Balance.entry (balance : Balance α) (block d : Nat) : α :=
  (balance[block]?.getD [])[d]?.getD 0

theorem Balance.entry_modify (balance : Balance α) (b block d : Nat) {f : List α → List α}
    (hf : f [] = []) :
    entry (balance.modify b f) block d
      =
    if b = block then (f (balance[block]?.getD []))[d]?.getD 0 else balance.entry block d := by
  unfold entry
  rw [Array.getElem?_modify]
  split
  . cases balance[block]? with
    | none => simp [hf]
    | some row => rfl
  . rfl

end Entries

variable [ExactScalar α]

theorem getD_addOnto_le (row : List α) {weights : List α} {d : Nat}
    (hnonneg : 0 ≤ weights[d]?.getD 0) :
    row[d]?.getD 0 ≤ (addOnto row weights)[d]?.getD 0 := by
  induction row generalizing weights d with
  | nil => rw [nil_addOnto]
  | cons a row ih =>
    cases weights with
    | nil => exact le_refl _
    | cons w weights =>
      cases d with
      | zero =>
        simp only [addOnto, List.getElem?_cons_zero, Option.getD_some] at hnonneg ⊢
        linarith
      | succ d => exact ih hnonneg

theorem getD_takeOff_le (row : List α) {weights : List α} {d : Nat}
    (hnonneg : 0 ≤ weights[d]?.getD 0) :
    (takeOff row weights)[d]?.getD 0 ≤ row[d]?.getD 0 := by
  induction row generalizing weights d with
  | nil => rw [nil_takeOff]
  | cons a row ih =>
    cases weights with
    | nil => exact le_refl _
    | cons w weights =>
      cases d with
      | zero =>
        simp only [takeOff, List.getElem?_cons_zero, Option.getD_some] at hnonneg ⊢
        linarith
      | succ d => exact ih hnonneg

theorem le_of_withinBound {row bound : List α} (hlength : row.length = bound.length)
    (h : withinBound row bound = true) (d : Nat) : row[d]?.getD 0 ≤ bound[d]?.getD 0 := by
  induction row generalizing bound d with
  | nil =>
    cases bound with
    | nil => exact le_refl _
    | cons limit bound => simp at hlength
  | cons weight row ih =>
    cases bound with
    | nil => simp at hlength
    | cons limit bound =>
      unfold withinBound at h ih
      rw [List.zip_cons_cons, List.all_cons, Bool.and_eq_true, decide_eq_true_eq] at h
      cases d with
      | zero => exact h.left
      | succ d => exact ih (Nat.succ.inj hlength) h.right d

namespace Balance

variable {balance : Balance α} {source target : Nat} {weight : List α}

theorem entry_shift_le {d : Nat} (hnonneg : 0 ≤ weight[d]?.getD 0) {block : Nat}
    (hne : block ≠ target) :
    (balance.shift source target weight).entry block d ≤ balance.entry block d := by
  unfold shift
  split
  . exact le_refl _
  . rw [entry_modify _ _ _ _ (nil_addOnto weight), if_neg hne.symm,
      entry_modify _ _ _ _ (nil_takeOff weight)]
    split
    . exact getD_takeOff_le _ hnonneg
    . exact le_refl _

theorem le_entry_shift {d : Nat} (hnonneg : 0 ≤ weight[d]?.getD 0) :
    balance.entry target d ≤ (balance.shift source target weight).entry target d := by
  unfold shift
  split
  . exact le_refl _
  . next hne =>
    rw [entry_modify _ _ _ _ (nil_addOnto weight), if_pos rfl, Array.getElem?_modify, if_neg hne]
    exact getD_addOnto_le _ hnonneg

def Confined (balance bounds initial : Balance α) : Prop :=
  ∀ block d, balance.entry block d ≤ max (bounds.entry block d) (initial.entry block d)

end Balance

namespace CostModel

variable (model : CostModel α) (graph : Hypergraph α) (bounds initial : Balance α)

structure CommitsWithin (state : PartitionState α) (move : Gain α) (next : PartitionState α) :
    Prop where
  commit_eq : model.commit graph state move = .ok (move.gain, next)
  confined : next.blockBalance.Confined bounds initial
  target : ∃ target moving, move.target = some target ∧
    movers? graph state.solution move.hyperedge target = some moving ∧
    (∀ d, next.blockBalance.entry target d ≤ bounds.entry target d) ∧
    ∀ n, ∃ between,
      (moving.take n).foldlM (fun state v => state.move graph v target) state = .ok between ∧
      between.blockBalance.Confined bounds initial

inductive RunsWithin (start : PartitionState α) : List (Gain α) → PartitionState α → Prop where
  | nil : RunsWithin start [] start
  | cons {moves : List (Gain α)} {state next : PartitionState α} {move : Gain α} :
    RunsWithin start moves state → model.CommitsWithin graph bounds initial state move next →
    RunsWithin start (move :: moves) next

end CostModel

variable {model : CostModel α} {graph : Hypergraph α} {bounds initial : Balance α}

theorem Hypergraph.nonneg_weight (h : ∀ x ∈ graph.vertices, ∀ w ∈ x.weight, 0 ≤ w) (v d : Nat) :
    0 ≤ (graph.weight v)[d]?.getD 0 := by
  cases hw : (graph.weight v)[d]? with
  | none => exact le_refl _
  | some w =>
    have hmem := List.mem_of_getElem? hw
    cases Nat.lt_or_ge v graph.numVertices with
    | inl hv =>
      obtain ⟨x, hx, _, hweight⟩ := vertex?_of_lt hv
      rw [hweight] at hmem
      exact h x hx w hmem
    | inr hv =>
      unfold numVertices at hv
      simp [weight, vertex?, hv] at hmem

namespace PartitionState

variable {state : PartitionState α} {target : Nat}

section Entries

variable {vertices : List Nat} {d : Nat}
  (hnonneg : ∀ v ∈ vertices, 0 ≤ (graph.weight v)[d]?.getD 0)

include hnonneg

theorem entry_gathered_le {block : Nat} (hne : block ≠ target) :
    (state.gathered model graph vertices target).blockBalance.entry block d
      ≤
    state.blockBalance.entry block d := by
  unfold gathered
  induction vertices generalizing state with
  | nil => exact le_refl _
  | cons v vertices ih =>
    rw [List.forall_mem_cons] at hnonneg
    apply le_trans (ih hnonneg.right)
    exact Balance.entry_shift_le hnonneg.left hne

variable (model state target) in
theorem le_entry_gathered :
    state.blockBalance.entry target d
      ≤
    (state.gathered model graph vertices target).blockBalance.entry target d := by
  unfold gathered
  induction vertices generalizing state with
  | nil => exact le_refl _
  | cons v vertices ih =>
    rw [List.forall_mem_cons] at hnonneg
    apply le_trans _ (ih _ hnonneg.right)
    exact Balance.le_entry_shift hnonneg.left

end Entries

variable (h : state.InStep model graph) (hg : graph.WellFormed)
  (hb : bounds.HasShape model.numParts graph.dimensions.vertex) (ht : target < model.numParts)
  {e : Nat}

include h hg hb ht

theorem InStep.entry_committed_le (hlegal : CostModel.legal graph bounds state e target = true)
    (d : Nat) :
    (state.committed model graph e target).blockBalance.entry target d ≤ bounds.entry target d := by
  obtain ⟨row, hrow, hlength⟩ := (h.committed hg (e := e) ht).hasShape.getElem?_of_lt ht
  obtain ⟨bound, hbound, hlength'⟩ := hb.getElem?_of_lt ht
  rw [h.legal_eq hg bounds e ht, hrow, hbound] at hlegal
  unfold Balance.entry
  rw [hrow, hbound]
  apply le_of_withinBound _ hlegal
  rw [Option.getD_some, Option.getD_some, hlength, hlength']

variable (hweights : ∀ x ∈ graph.vertices, ∀ w ∈ x.weight, 0 ≤ w)

include hweights

theorem InStep.confined_gathered (hlegal : CostModel.legal graph bounds state e target = true)
    (hconfined : state.blockBalance.Confined bounds initial) (n : Nat) :
    (state.gathered model graph ((graph.movers state.solution e target).take n)
      target).blockBalance.Confined bounds initial := by
  intro block d
  by_cases hblock : block = target
  -- The target block weighs most after the last vertex, and then it is within its bound.
  . subst hblock
    apply le_max_of_le_left
    apply le_trans _ (h.entry_committed_le hg hb ht hlegal d)
    have hdrop : ∀ v ∈ (graph.movers state.solution e block).drop n,
        0 ≤ (graph.weight v)[d]?.getD 0 := fun v _ => Hypergraph.nonneg_weight hweights v d
    have hrest := le_entry_gathered model
      (state.gathered model graph ((graph.movers state.solution e block).take n) block) block hdrop
    unfold gathered at hrest ⊢
    rw [← List.foldl_append, List.take_append_drop] at hrest
    exact hrest
  . apply le_trans _ (hconfined block d)
    exact entry_gathered_le (fun v _ => Hypergraph.nonneg_weight hweights v d) hblock

theorem InStep.commitsWithin (he : e < graph.numHyperedges)
    (hlegal : CostModel.legal graph bounds state e target = true)
    (hconfined : state.blockBalance.Confined bounds initial) :
    model.CommitsWithin graph bounds initial state
      (model.candidate graph state.solution e target) (state.committed model graph e target) := by
  have hpoints := h.confined_gathered hg hb ht hweights hlegal hconfined
  constructor
  . exact h.commit_eq hg ht he rfl
  . have := hpoints (graph.movers state.solution e target).length
    rw [List.take_length] at this
    exact this
  . refine ⟨target, _, rfl, h.admits.movers?_eq hg he, h.entry_committed_le hg hb ht hlegal, ?_⟩
    intro n
    refine ⟨_, h.toTracks.foldlM_move hg ht ?_, hpoints n⟩
    intro v hv
    exact hg.lt_of_mem_movers v (List.mem_of_mem_take hv)

end PartitionState

theorem CostModel.RunsWithin.trans {start middle final : PartitionState α}
    {first last : List (Gain α)}
    (hfirst : model.RunsWithin graph bounds initial start first middle)
    (hlast : model.RunsWithin graph bounds initial middle last final) :
    model.RunsWithin graph bounds initial start (last ++ first) final := by
  induction hlast with
  | nil => exact hfirst
  | cons _ hmove ih => exact ih.cons hmove

namespace PartitionState.InStep

variable {state : PartitionState α} (h : state.InStep model graph) (hg : graph.WellFormed)
  (hb : bounds.HasShape model.numParts graph.dimensions.vertex)
  (hweights : ∀ x ∈ graph.vertices, ∀ w ∈ x.weight, 0 ≤ w)
  (hconfined : state.blockBalance.Confined bounds initial) (limits : RefineLimits)

include h hg hb hweights hconfined

theorem runsWithin_passed :
    model.RunsWithin graph bounds initial state (model.passed graph bounds limits state).moves
        (model.passed graph bounds limits state).state ∧
      (model.passed graph bounds limits state).state.blockBalance.Confined bounds initial := by
  apply And.right
  apply visited_induction hg
    (P := fun pass => model.RunsWithin graph bounds initial state pass.moves pass.state ∧
      pass.state.blockBalance.Confined bounds initial)
  . intro pass e hpass
    exact hpass
  . intro pass e he hstate hpass
    cases CostModel.improved_cases pass e with
    | inl heq =>
      rw [heq]
      exact hpass
    | inr hmove =>
      obtain ⟨target, ht, hlegal, _, heq⟩ := hmove
      rw [List.mem_range] at he
      have hcommits := hstate.commitsWithin hg hb ht hweights he hlegal hpass.right
      rw [heq]
      exact ⟨hpass.left.cons hcommits, hcommits.confined⟩
  . exact h
  . exact ⟨.nil, hconfined⟩

theorem runsWithin_runPasses (n : Nat) :
    model.RunsWithin graph bounds initial state
      ((model.runPasses graph limits bounds n state).done.reverse.flatMap (·.moves))
      ((model.runPasses graph limits bounds n state).reached state) := by
  induction n generalizing state with
  | zero => exact .nil
  | succ n ih =>
    obtain ⟨hpassed, hconfined'⟩ := h.runsWithin_passed hg hb hweights hconfined limits
    rw [h.runPasses_succ hg hb limits]
    split
    . simpa [Passes.reached] using hpassed
    . rw [Passes.reached_cons, List.reverse_cons, List.flatMap_append, List.flatMap_singleton]
      exact hpassed.trans (ih (h.passed bounds hg limits) hconfined')

end PartitionState.InStep

theorem pass_and_refine_keep_capacity (limits : RefineLimits) {state : PartitionState α}
    (hgraph : graph.Reachable) (hweights : ∀ x ∈ graph.vertices, ∀ w ∈ x.weight, 0 ≤ w)
    (htruth : PartitionState.ofSolution model graph state.solution = .ok state)
    (hbounds : bounds.HasShape model.numParts graph.dimensions.vertex) :
    (∃ pass, model.pass graph limits bounds state = .ok pass ∧
      model.RunsWithin graph bounds state.blockBalance state pass.moves pass.state) ∧
    (∃ summary, (model.refine graph limits bounds state).outcome = .ok summary) ∧
    model.RunsWithin graph bounds state.blockBalance state
      ((model.refine graph limits bounds state).passes.reverse.flatMap (·.moves))
      (model.refine graph limits bounds state).state := by
  have hg := hgraph.wellFormed
  have h := (PartitionState.ofSolution_eq_ok_iff hg).mp htruth
  have hconfined : state.blockBalance.Confined bounds state.blockBalance := by
    intro block d
    exact le_max_right _ _
  have hpassed := h.runsWithin_passed hg hbounds hweights hconfined limits
  have hrun := h.runsWithin_runPasses hg hbounds hweights hconfined limits limits.maxPasses
  refine ⟨⟨_, h.pass_eq hg hbounds limits, hpassed.left⟩, ?_⟩
  rw [h.refine_eq hg hbounds limits]
  exact ⟨⟨_, rfl⟩, hrun⟩

theorem pass_and_refine_keep_capacity_chain :
    ∃ pass, CostModel.standard.pass Hypergraph.chain .standard #[[4], [0]] .chain = .ok pass ∧
      CostModel.standard.RunsWithin .chain #[[4], [0]] #[[3], [1]] .chain pass.moves pass.state :=
  (pass_and_refine_keep_capacity .standard Hypergraph.reachable_chain (by decide)
    PartitionState.ofSolution_chain (⟨rfl, by simp [Hypergraph.chain]⟩)).left

end CircuitPartition
