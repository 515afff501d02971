import CircuitPartition.Cost.Slack
import CircuitPartition.Proofs.Exact
import CircuitPartition.Proofs.Graph.WellFormed
import Mathlib.Logic.Relation

/-!
The hypergraphs that a caller can get at: those that are built, and what becomes of them when their
slacks and derived costs change. Whatever changes them does so by setting one slack after the other
and all derived costs at once. All of them are well-formed.
-/

namespace CircuitPartition

variable {α : Type} [Scalar α]

inductive Builder.Reachable : Builder α → Prop where
  | empty (vertex hyperedge : Nat) : Reachable (.empty vertex hyperedge)
  | withPlacementDimensions {b : Builder α} (n : Nat) :
    Reachable b → Reachable (b.withPlacementDimensions n)
  | withClockPeriod {b : Builder α} (period : α) :
    Reachable b → Reachable (b.withClockPeriod period)
  | addVertex {b next : Builder α} (weight location : List α) :
    Reachable b → b.addVertex weight location = .ok next → Reachable next
  | addHyperedge {b next : Builder α} (pins : List Nat) (weight : List α) :
    Reachable b → b.addHyperedge pins weight = .ok next → Reachable next
  | setHyperedgeSlack {b next : Builder α} (e : Nat) (slack : α) :
    Reachable b → b.setHyperedgeSlack e slack = .ok next → Reachable next
  | addPath {b next : Builder α} (vertices hyperedges : List Nat) (slack : α) :
    Reachable b → b.addPath vertices hyperedges slack = .ok next → Reachable next

theorem Builder.Reachable.wellFormed {b : Builder α} (h : b.Reachable) : b.WellFormed := by
  induction h with
  | empty vertex hyperedge => apply Builder.wellFormed_empty
  | withPlacementDimensions n _ ih => exact ih.withPlacementDimensions n
  | withClockPeriod period _ ih => exact ih.withClockPeriod period
  | addVertex _ _ _ hstep ih => exact ih.addVertex hstep
  | addHyperedge _ _ _ hstep ih => exact ih.addHyperedge hstep
  | setHyperedgeSlack _ _ _ hstep ih => exact ih.setHyperedgeSlack hstep
  | addPath _ _ _ _ hstep ih => exact ih.addPath hstep

inductive Hypergraph.Reachable : Hypergraph α → Prop where
  | build {b : Builder α} {graph : Hypergraph α} :
    b.Reachable → b.build = .ok graph → Reachable graph
  | setPathSlack {graph : Hypergraph α} {timing next : Timing α} (p : Nat) (slack : α) :
    Reachable graph → graph.timing = some timing → timing.setPathSlack p slack = .ok next →
    Reachable { graph with timing := some next }
  | setHyperedgeSlack {graph : Hypergraph α} {timing next : Timing α} (e : Nat) (slack : α) :
    Reachable graph → graph.timing = some timing → timing.setHyperedgeSlack e slack = .ok next →
    Reachable { graph with timing := some next }
  | setDerived {graph : Hypergraph α} {timing next : Timing α} (derived : DerivedCosts α) :
    Reachable graph → graph.timing = some timing → timing.setDerived derived = .ok next →
    Reachable { graph with timing := some next }
  | initializeTiming {graph next : Hypergraph α} (model : CostModel α) :
    Reachable graph → model.initializeTiming graph = .ok next → Reachable next
  | updateTiming {graph : Hypergraph α} (model : CostModel α) (solution : Solution) :
    Reachable graph → Reachable (model.updateTiming graph solution).graph

inductive Timing.Step : Timing α → Timing α → Prop where
  | setPathSlack {timing next : Timing α} (p : Nat) (slack : α) :
    timing.setPathSlack p slack = .ok next → Step timing next
  | setHyperedgeSlack {timing next : Timing α} (e : Nat) (slack : α) :
    timing.setHyperedgeSlack e slack = .ok next → Step timing next
  | setDerived {timing next : Timing α} (derived : DerivedCosts α) :
    timing.setDerived derived = .ok next → Step timing next

open Relation (ReflTransGen)

theorem Timing.assign_steps {set : Timing α → Nat → α → Except (GraphError α) (Timing α)}
    (hset : ∀ timing i value next, set timing i value = .ok next → timing.Step next)
    (start : Nat) (values : List α) (timing : Timing α) :
    ReflTransGen Timing.Step timing (timing.assign set start values).1 := by
  induction values generalizing start timing with
  | nil => exact .refl
  | cons value values ih =>
    unfold Timing.assign
    split
    . next next hnext => exact .head (hset timing start value next hnext) (ih _ _)
    . exact .refl

namespace CostModel

variable {model : CostModel α} {graph : Hypergraph α}

theorem initializeTiming_cases {next : Hypergraph α} (h : model.initializeTiming graph = .ok next) :
    next = graph
      ∨
    ∃ timing after, graph.timing = some timing ∧ timing.Step after ∧
      next = { graph with timing := some after } := by
  unfold initializeTiming at h
  split at h
  . simp only [pure_eq_ok, Except.ok.injEq] at h
    exact .inl h.symm
  . next timing ht =>
    simp only [bind_eq_ok, Failure.liftM_graph_eq_ok, pure_eq_ok, Except.ok.injEq] at h
    obtain ⟨derived, _, after, hset, rfl⟩ := h
    exact .inr ⟨timing, after, ht, .setDerived derived hset, rfl⟩

variable (model graph) in
theorem updateTiming_cases (solution : Solution) :
    (model.updateTiming graph solution).graph = graph
      ∨
    ∃ timing after, graph.timing = some timing ∧ ReflTransGen Timing.Step timing after ∧
      (model.updateTiming graph solution).graph = { graph with timing := some after } := by
  unfold updateTiming
  split
  . exact .inl rfl
  . exact .inl rfl
  . next timing _ ht =>
    split
    . exact .inl rfl
    . next slacks _ =>
      -- An assignment that stops halfway has set slacks as well, and nothing else.
      apply Or.inr
      have hpath := Timing.assign_steps (fun _ p slack _ => Timing.Step.setPathSlack p slack) 0
        slacks.path timing
      split
      . next timing' cause hassign =>
        rw [hassign] at hpath
        exact ⟨timing, timing', ht, hpath, rfl⟩
      . next timing' hassign =>
        rw [hassign] at hpath
        have hhyperedge := Timing.assign_steps
          (fun _ e slack _ => Timing.Step.setHyperedgeSlack e slack) 0 slacks.hyperedge timing'
        split
        . next timing'' cause hassign' =>
          rw [hassign'] at hhyperedge
          exact ⟨timing, timing'', ht, hpath.trans hhyperedge, rfl⟩
        . next timing'' hassign' =>
          rw [hassign'] at hhyperedge
          dsimp only
          split
          . exact ⟨timing, timing'', ht, hpath.trans hhyperedge, rfl⟩
          . next initialized hinit =>
            cases initializeTiming_cases hinit with
            | inl heq => exact ⟨timing, timing'', ht, hpath.trans hhyperedge, heq⟩
            | inr hstep =>
              obtain ⟨_, after, hcharged, hstep, rfl⟩ := hstep
              rw [Option.some.injEq] at hcharged
              subst hcharged
              exact ⟨timing, after, ht, (hpath.trans hhyperedge).tail hstep, rfl⟩

end CostModel

theorem Hypergraph.keeps_steps {P : Hypergraph α → Prop}
    (hstep : ∀ graph timing next, P graph → graph.timing = some timing → timing.Step next →
      P { graph with timing := some next })
    {graph : Hypergraph α} {timing next : Timing α} (h : P graph) (ht : graph.timing = some timing)
    (hsteps : ReflTransGen Timing.Step timing next) : P { graph with timing := some next } := by
  induction hsteps with
  | refl =>
    rw [← ht]
    exact h
  | @tail middle last _ hlast ih =>
    exact hstep { graph with timing := some middle } middle last ih rfl hlast

theorem Hypergraph.Reachable.induction {P : Hypergraph α → Prop}
    (hbuild : ∀ (b : Builder α) graph, b.Reachable → b.build = .ok graph → P graph)
    (hstep : ∀ graph timing next, P graph → graph.timing = some timing → timing.Step next →
      P { graph with timing := some next })
    {graph : Hypergraph α} (h : graph.Reachable) : P graph := by
  induction h with
  | build hb h => exact hbuild _ _ hb h
  | setPathSlack p slack _ ht hset ih => exact hstep _ _ _ ih ht (.setPathSlack p slack hset)
  | setHyperedgeSlack e slack _ ht hset ih =>
    exact hstep _ _ _ ih ht (.setHyperedgeSlack e slack hset)
  | setDerived derived _ ht hset ih => exact hstep _ _ _ ih ht (.setDerived derived hset)
  | initializeTiming model _ hinit ih =>
    cases CostModel.initializeTiming_cases hinit with
    | inl heq =>
      rw [heq]
      exact ih
    | inr hchanged =>
      obtain ⟨timing, after, ht, hset, rfl⟩ := hchanged
      exact hstep _ _ _ ih ht hset
  | @updateTiming graph model solution _ ih =>
    cases CostModel.updateTiming_cases model graph solution with
    | inl heq =>
      rw [heq]
      exact ih
    | inr hchanged =>
      obtain ⟨timing, after, ht, hset, heq⟩ := hchanged
      rw [heq]
      exact keeps_steps hstep ih ht hset

theorem Timing.WellFormed.step {vertices hyperedges : Nat} {timing next : Timing α}
    (ht : timing.WellFormed vertices hyperedges) (h : timing.Step next) :
    next.WellFormed vertices hyperedges := by
  cases h with
  | setPathSlack p slack hset => exact ht.setPathSlack hset
  | setHyperedgeSlack e slack hset => exact ht.setHyperedgeSlack hset
  | setDerived derived hset => exact ht.setDerived hset

omit [Scalar α] in
theorem Hypergraph.WellFormed.withTiming {graph : Hypergraph α} (hg : graph.WellFormed)
    {timing : Timing α} (ht : timing.WellFormed graph.numVertices graph.numHyperedges) :
    { graph with timing := some timing }.WellFormed := by
  obtain ⟨h1, h2, h3, h4, h5, _⟩ := hg
  refine ⟨h1, h2, h3, h4, h5, ?_⟩
  intro other hother
  simp only [Option.some.injEq] at hother
  subst hother
  exact ht

theorem Hypergraph.Reachable.wellFormed {graph : Hypergraph α} (h : graph.Reachable) :
    graph.WellFormed := by
  apply h.induction
  . intro b graph hb hbuild
    exact hb.wellFormed.build hbuild
  . intro graph timing next hg ht hstep
    exact hg.withTiming ((hg.timing timing ht).step hstep)

def Hypergraph.chain : Hypergraph ℚ where
  dimensions := ⟨1, 1, 0⟩
  vertices := #[⟨[1], []⟩, ⟨[1], []⟩, ⟨[2], []⟩]
  hyperedges := #[⟨[0, 1], [1]⟩, ⟨[1, 2], [1]⟩]
  vertexHyperedges := #[[0], [0, 1], [1]]
  timing := some {
    clockPeriod := 4
    baseHyperedgeSlack := #[4, 4]
    hyperedgeSlack := #[4, 4]
    paths := #[⟨[0, 1, 2], [0, 1], 0, 0⟩]
    vertexPaths := #[[0], [0], [0]]
    hyperedgePaths := #[[0], [0]]
    derived := none }

theorem Hypergraph.reachable_chain : Hypergraph.chain.Reachable := by
  have hempty := Builder.Reachable.withClockPeriod 4 (Builder.Reachable.empty (α := ℚ) 1 1)
  have hv0 := hempty.addVertex [1] [] rfl
  have hv1 := hv0.addVertex [1] [] rfl
  have hv2 := hv1.addVertex [2] [] rfl
  have he0 := hv2.addHyperedge [0, 1] [1] rfl
  have he1 := he0.addHyperedge [1, 2] [1] rfl
  have hpath := he1.addPath [0, 1, 2] [0, 1] 0 rfl
  exact .build hpath (by decide +kernel)

end CircuitPartition
