import CircuitPartition.Proofs.Graph.Dimensions
import CircuitPartition.Proofs.Graph.Representation
import CircuitPartition.Word

/-!
What changes of slacks and derived costs leave alone: the shape of the hypergraph, with every index
and every length in it.
-/

namespace CircuitPartition

namespace Hypergraph

variable {α : Type} [Scalar α]

open Relation (ReflTransGen)

theorem retime_cases (graph : Hypergraph α) {set : Timing α → Except (GraphError α) (Timing α)}
    (hset : ∀ timing next, set timing = .ok next → timing.Step next) :
    graph.retime set = graph
      ∨
    ∃ timing after, graph.timing = some timing ∧ timing.Step after ∧
      graph.retime set = { graph with timing := some after } := by
  unfold retime
  split
  . exact .inl rfl
  . next timing ht =>
    split
    . next after hafter => exact .inr ⟨timing, after, ht, hset timing after hafter, rfl⟩
    . exact .inl rfl

theorem change_cases (graph : Hypergraph α) (change : Change α) :
    graph.change change = graph
      ∨
    ∃ timing after, graph.timing = some timing ∧ ReflTransGen Timing.Step timing after ∧
      graph.change change = { graph with timing := some after } := by
  have single {set : Timing α → Except (GraphError α) (Timing α)}
      (hset : ∀ timing next, set timing = .ok next → timing.Step next) :
      graph.retime set = graph
        ∨
      ∃ timing after, graph.timing = some timing ∧ ReflTransGen Timing.Step timing after ∧
        graph.retime set = { graph with timing := some after } := by
    apply (retime_cases graph hset).imp_right
    rintro ⟨timing, after, ht, hstep, heq⟩
    exact ⟨timing, after, ht, .single hstep, heq⟩
  cases change with
  | setPathSlack p slack => exact single fun _ _ => .setPathSlack p slack
  | setHyperedgeSlack e slack => exact single fun _ _ => .setHyperedgeSlack e slack
  | setDerived derived => exact single fun _ _ => .setDerived derived
  | initializeTiming model =>
    unfold Hypergraph.change
    dsimp only
    split
    . next next hnext =>
      apply (CostModel.initializeTiming_cases hnext).imp_right
      rintro ⟨timing, after, ht, hstep, heq⟩
      exact ⟨timing, after, ht, .single hstep, heq⟩
    . exact .inl rfl
  | updateTiming model solution => exact CostModel.updateTiming_cases model graph solution

theorem changeAll_induction {P : Hypergraph α → Prop}
    (hstep : ∀ graph timing next, P graph → graph.timing = some timing → timing.Step next →
      P { graph with timing := some next })
    {graph : Hypergraph α} (h : P graph) (changes : List (Change α)) :
    P (graph.changeAll changes) := by
  unfold changeAll
  induction changes generalizing graph with
  | nil => exact h
  | cons change changes ih =>
    apply ih
    cases change_cases graph change with
    | inl heq =>
      rw [heq]
      exact h
    | inr hchanged =>
      obtain ⟨timing, after, ht, hreach, heq⟩ := hchanged
      rw [heq]
      exact keeps_steps hstep h ht hreach

theorem Reachable.measured {graph : Hypergraph α} (h : graph.Reachable) : graph.Measured := by
  apply h.induction
  . intro b graph hb hbuild
    exact hb.measured_build hbuild
  . rintro graph timing next ⟨h1, h2, h3, h4, h5, h6⟩ _ _
    exact ⟨h1, h2, h3, h4, h5, h6⟩

theorem Placed.changeAll {graph : Hypergraph α} (h : graph.Placed) (changes : List (Change α)) :
    (graph.changeAll changes).Placed := by
  apply changeAll_induction _ h
  intro graph timing next hplaced _ _
  exact hplaced

end Hypergraph

namespace Timing

variable {α : Type}

structure Fits (timing : Timing α) : Prop where
  paths : timing.paths.size < Word.count 64
  path : ∀ path ∈ timing.paths,
    path.vertices.length < Word.count 64 ∧ path.hyperedges.length < Word.count 64

theorem Fits.step [Scalar α] {timing next : Timing α} (ht : timing.Fits) (h : timing.Step next) :
    next.Fits := by
  cases h with
  | setPathSlack p slack hset =>
    obtain ⟨_, _, rfl⟩ := setPathSlack_eq_ok.mp hset
    constructor
    . rw [Array.size_modify]
      exact ht.paths
    . exact forall_mem_modify_slack ht.path (fun _ hpath => hpath)
  | setHyperedgeSlack e slack hset =>
    obtain ⟨_, _, rfl⟩ := setHyperedgeSlack_eq_ok.mp hset
    exact ⟨ht.paths, ht.path⟩
  | setDerived derived hset =>
    obtain ⟨_, _, rfl⟩ := setDerived_eq_ok.mp hset
    exact ⟨ht.paths, ht.path⟩

end Timing

namespace Hypergraph

variable {α : Type}

/--
Numbers of 64 bits count the dimensions, and whatever a hypergraph has in a list. Memory that is
addressed by such numbers has no room for anything else.
-/
structure Fits (graph : Hypergraph α) : Prop where
  vertex_dimensions : graph.dimensions.vertex < Word.count 64
  hyperedge_dimensions : graph.dimensions.hyperedge < Word.count 64
  placement_dimensions : graph.dimensions.placement < Word.count 64
  numVertices : graph.numVertices < Word.count 64
  numHyperedges : graph.numHyperedges < Word.count 64
  location : ∀ v ∈ graph.vertices, v.location.length < Word.count 64
  timing : ∀ timing, graph.timing = some timing → timing.Fits

theorem Fits.changeAll [Scalar α] {graph : Hypergraph α} (h : graph.Fits)
    (changes : List (Change α)) : (graph.changeAll changes).Fits := by
  apply changeAll_induction _ h
  rintro graph timing next ⟨h1, h2, h3, h4, h5, h6, h7⟩ ht hstep
  refine ⟨h1, h2, h3, h4, h5, h6, ?_⟩
  rintro _ ⟨rfl⟩
  exact (h7 timing ht).step hstep

end Hypergraph

end CircuitPartition
