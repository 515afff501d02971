import CircuitPartition.Proofs.Cost.Slack
import Mathlib.Algebra.BigOperators.Group.Finset.Basic
import Mathlib.Order.Bounds.Basic

/-!
With exact arithmetic, what an update of the timing leaves: slacks that have paid for every cut, and
costs that are scores of these slacks. Paths pay each time that they list a cut hyperedge, while a
hyperedge takes account of each of its paths once.
-/

namespace CircuitPartition

open Finset (range)

section Fill

variable {α β : Type} (slots : Array β)

theorem fill_map (write : β → α → β) (f : β → α) :
    fill write slots (slots.toList.map f) = slots.map fun slot => write slot (f slot) := by
  apply Array.ext_getElem?
  intro i
  rw [getElem?_fill, Array.getElem?_map, List.getElem?_map, Array.getElem?_toList]
  cases slots[i]? with
  | none => rfl
  | some slot => rfl

theorem fill_const {values : List β} (h : values.length = slots.size) :
    fill (fun _ value => value) slots values = values.toArray := by
  apply Array.ext_getElem?
  intro i
  rw [getElem?_fill, List.getElem?_toArray]
  cases Nat.lt_or_ge i slots.size with
  | inl hi => simp [hi, h]
  | inr hi => simp [hi, h]

end Fill

namespace Hypergraph

variable {α : Type} {graph : Hypergraph α} {timing : Timing α}

namespace WellFormed

variable (hg : graph.WellFormed) (ht : graph.timing = some timing) {e : Nat}
  (he : e < graph.numHyperedges)

include hg ht he

theorem toFinset_traversing :
    (timing.traversing e).toFinset = (range graph.numPaths).filter (e ∈ graph.traversed ·) := by
  obtain ⟨_, _, hmem⟩ := hg.inverts_traversing ht he
  obtain ⟨_, hlt⟩ := hg.hyperedgePaths?_of_lt ht he
  have hsize : graph.numPaths = timing.paths.size := by simp [numPaths, ht]
  ext p
  rw [List.mem_toFinset, Finset.mem_filter, Finset.mem_range, hsize, ← hmem]
  constructor
  . intro hp
    exact ⟨hlt p hp, hp⟩
  . intro hp
    exact hp.right

theorem mem_pick_traversing [Scalar α] {f : TimingPath α → α} {x : α} :
    x ∈ CostModel.pick (timing.paths.toList.map f) (timing.traversing e)
      ↔
    ∃ path ∈ timing.paths, e ∈ path.hyperedges ∧ f path = x := by
  obtain ⟨_, _, hmem⟩ := hg.inverts_traversing ht he
  unfold CostModel.pick
  simp only [List.mem_map, hmem, traversed_eq ht, List.getElem?_map,
    Array.getElem?_toList]
  constructor
  . rintro ⟨p, hmem, rfl⟩
    cases hpath : timing.paths[p]? with
    | none => simp [hpath] at hmem
    | some path =>
      refine ⟨path, Array.mem_of_getElem? hpath, ?_, rfl⟩
      simpa [hpath] using hmem
  . rintro ⟨path, hpath, hmem, rfl⟩
    obtain ⟨p, hp⟩ := Array.mem_iff_getElem?.mp hpath
    refine ⟨p, ?_, ?_⟩
    . simpa [hp] using hmem
    . simp [hp]

theorem sum_pick_traversing [ExactScalar α] (values : List α) :
    Scalar.sum (CostModel.pick values (timing.traversing e))
      =
    ∑ p ∈ range graph.numPaths with e ∈ graph.traversed p, values[p]?.getD 0 := by
  obtain ⟨_, hasc, _⟩ := hg.inverts_traversing ht he
  have hnodup : (timing.traversing e).Nodup := by
    apply hasc.imp
    omega
  rw [ExactScalar.sum_eq_sum, ← hg.toFinset_traversing ht he, List.sum_toFinset _ hnodup]
  rfl

end WellFormed

end Hypergraph

variable {α : Type} [ExactScalar α]

namespace ExactScalar

theorem min_eq_min (a b : α) : Scalar.min a b = Min.min a b := by
  unfold Scalar.min
  rw [if_pos (beq_self_eq_true b)]
  split
  . next h => rw [min_eq_left (le_of_lt h)]
  . next h => rw [min_eq_right (not_lt.mp h)]

theorem isLeast_foldl_min (a : α) (values : List α) :
    IsLeast (insert a {x | x ∈ values}) (values.foldl Scalar.min a) := by
  induction values generalizing a with
  | nil => simp
  | cons b values ih =>
    rw [List.foldl_cons, min_eq_min]
    obtain ⟨hmem, hle⟩ := ih (min a b)
    have hmin : values.foldl Scalar.min (min a b) ≤ min a b := hle (Set.mem_insert _ _)
    constructor
    . rcases hmem with hmem | hmem
      . rw [hmem]
        rcases min_choice a b with h | h
        . simp [h]
        . simp [h]
      . exact .inr (List.mem_cons_of_mem b hmem)
    . rintro x (rfl | hx)
      . exact hmin.trans (min_le_left _ _)
      . rcases List.mem_cons.mp hx with rfl | hx
        . exact hmin.trans (min_le_right _ _)
        . exact hle (.inr hx)

end ExactScalar

namespace CostModel

/--
What the cuts of a solution leave of the slacks. A path has lost the cut delay for each time that it
lists a hyperedge that is cut. A hyperedge has lost it once if it is cut itself, and has no more
slack than the paths that list it.
-/
structure Charges (model : CostModel α) (graph : Hypergraph α) (solution : Solution)
    (before after : Timing α) : Prop where
  clockPeriod : after.clockPeriod = before.clockPeriod
  paths : after.paths = before.paths.map fun path => { path with
    slack := path.baseSlack
      - model.cutDelay * (path.hyperedges.countP (graph.cut solution.blockOf) : α) }
  hyperedge : ∀ e < graph.numHyperedges, ∃ base slack,
    before.baseHyperedgeSlack[e]? = some base ∧ after.hyperedgeSlack[e]? = some slack ∧
      IsLeast
        (insert (if graph.cut solution.blockOf e then base - model.cutDelay else base)
          {x | ∃ path ∈ after.paths, e ∈ path.hyperedges ∧ path.slack = x})
        slack

structure Prices (model : CostModel α) (graph : Hypergraph α) (timing : Timing α)
    (derived : DerivedCosts α) : Prop where
  path : ∀ p < graph.numPaths, ∃ path,
    timing.paths[p]? = some path ∧
      derived.pathCosts[p]? = some (model.slackScore path.slack timing.clockPeriod)
  hyperedge : ∀ e < graph.numHyperedges, ∃ slack,
    timing.hyperedgeSlack[e]? = some slack ∧
      derived.hyperedgeWeights[e]? = some (model.slackScore slack timing.clockPeriod
        + ∑ p ∈ range graph.numPaths with e ∈ graph.traversed p, derived.pathCosts[p]?.getD 0)

section Update

variable (model : CostModel α) (graph : Hypergraph α) (solution : Solution) (timing : Timing α)

def updatedTiming : Timing α :=
  let charged := timing.withSlacks (model.chargedSlacks graph solution timing)
  { charged with
    derived := some (model.derivedCosts charged.clockPeriod charged.slacks charged.traversing) }

theorem paths_updatedTiming : (model.updatedTiming graph solution timing).paths
    = timing.paths.map fun path => { path with slack := model.chargedPath graph solution path } :=
  fill_map timing.paths _ _

theorem derived_updatedTiming :
    let updated := model.updatedTiming graph solution timing
    updated.derived
      =
    some (model.derivedCosts updated.clockPeriod updated.slacks updated.traversing) :=
  rfl

end Update

variable {model : CostModel α} {graph : Hypergraph α} {solution : Solution} {timing : Timing α}

theorem hyperedgeSlack_updatedTiming (hg : graph.WellFormed) (ht : graph.timing = some timing) :
    (model.updatedTiming graph solution timing).hyperedgeSlack
      =
    (model.chargedSlacks graph solution timing).hyperedge.toArray :=
  fill_const timing.hyperedgeSlack (model.length_chargedSlacks_hyperedge hg ht solution)

theorem slacks_updatedTiming (hg : graph.WellFormed) (ht : graph.timing = some timing) :
    (model.updatedTiming graph solution timing).slacks
      =
    model.chargedSlacks graph solution timing := by
  unfold Timing.slacks
  rw [paths_updatedTiming, hyperedgeSlack_updatedTiming hg ht]
  simp [chargedSlacks, Function.comp_def]

theorem charges_updatedTiming (hg : graph.WellFormed) (ht : graph.timing = some timing) :
    model.Charges graph solution timing (model.updatedTiming graph solution timing) := by
  refine ⟨rfl, ?_, ?_⟩
  . rw [paths_updatedTiming]
    unfold chargedPath
    simp only [List.countP_eq_length_filter]
  . intro e he
    have hbase : e < timing.baseHyperedgeSlack.size := by
      rw [(hg.timing timing ht).baseHyperedgeSlack_size]
      exact he
    have hset : {x | ∃ path ∈ (model.updatedTiming graph solution timing).paths,
          e ∈ path.hyperedges ∧ path.slack = x}
        = {x | x ∈ pick (timing.paths.toList.map (model.chargedPath graph solution))
            (timing.traversing e)} := by
      ext x
      rw [Set.mem_ofPred_eq, Set.mem_ofPred_eq, hg.mem_pick_traversing ht he, paths_updatedTiming]
      simp
    refine ⟨timing.baseHyperedgeSlack[e],
      model.chargedHyperedge graph solution e timing.baseHyperedgeSlack[e]
        (pick (timing.paths.toList.map (model.chargedPath graph solution)) (timing.traversing e)),
      Array.getElem?_eq_getElem hbase, ?_, ?_⟩
    . rw [hyperedgeSlack_updatedTiming hg ht]
      simp [chargedSlacks, hbase]
    . rw [hset]
      apply ExactScalar.isLeast_foldl_min

theorem prices_derivedCosts (hg : graph.WellFormed) (ht : graph.timing = some timing) :
    model.Prices graph timing
      (model.derivedCosts timing.clockPeriod timing.slacks timing.traversing) := by
  have hsize : graph.numPaths = timing.paths.size := by simp [Hypergraph.numPaths, ht]
  constructor
  . intro p hp
    rw [hsize] at hp
    refine ⟨timing.paths[p], Array.getElem?_eq_getElem hp, ?_⟩
    simp [derivedCosts, Timing.slacks, hp]
  . intro e he
    have hslack : e < timing.hyperedgeSlack.size := by
      rw [(hg.timing timing ht).hyperedgeSlack_size]
      exact he
    refine ⟨timing.hyperedgeSlack[e], Array.getElem?_eq_getElem hslack, ?_⟩
    have hsum := hg.sum_pick_traversing ht he
      (timing.slacks.path.map (model.slackScore · timing.clockPeriod))
    unfold derivedCosts
    dsimp only
    simp only [List.getElem?_toArray]
    rw [← hsum]
    simp [Timing.slacks, hslack, hyperedgeScore]

theorem updateTiming_eq_updatedTiming (hg : graph.WellFormed) (ht : graph.timing = some timing)
    (h : model.Admits graph solution) :
    model.updateTiming graph solution
      =
    ⟨{ graph with timing := some (model.updatedTiming graph solution timing) }, .ok ()⟩ := by
  rw [model.updateTiming_of_admits hg ht h]
  dsimp only
  rw [if_pos, if_pos]
  . rfl
  . exact List.all_eq_true.mpr fun _ _ => rfl
  . exact List.all_eq_true.mpr fun _ _ => rfl

theorem updateTiming_charges_and_prices (hgraph : graph.Reachable)
    (ht : graph.timing = some timing) (h : model.Admits graph solution) :
    ∃ after derived,
      let updated := { graph with timing := some after }
      model.updateTiming graph solution = ⟨updated, .ok ()⟩ ∧
      model.Charges graph solution timing after ∧
      (∀ path ∈ after.paths, ∀ e ∈ path.hyperedges, ∃ slack,
        after.hyperedgeSlack[e]? = some slack ∧ slack ≤ path.slack) ∧
      after.derived = some derived ∧
      model.Prices updated after derived ∧
      ∀ p < updated.numPaths, model.pathScore? updated p = derived.pathCosts[p]? := by
  have hg := hgraph.wellFormed
  have hupdate := updateTiming_eq_updatedTiming hg ht h
  have hupdated := (hgraph.updateTiming model solution).wellFormed
  rw [hupdate] at hupdated
  have hcharges : model.Charges graph solution timing (model.updatedTiming graph solution timing) :=
    charges_updatedTiming hg ht
  have hprices := model.prices_derivedCosts hupdated rfl
  refine ⟨_, _, hupdate, hcharges, ?_, model.derived_updatedTiming graph solution timing, hprices,
    ?_⟩
  . intro path hpath e he
    obtain ⟨_, slack, _, hslack, hleast⟩ := hcharges.hyperedge e
      ((hupdated.timing _ rfl).path_hyperedges path hpath e he)
    exact ⟨slack, hslack, hleast.right (.inr ⟨path, hpath, he, rfl⟩)⟩
  . intro p hp
    obtain ⟨path, hpath, hcost⟩ := hprices.path p hp
    rw [hcost]
    unfold pathScore?
    dsimp only at hpath ⊢
    rw [hpath]
    rfl

end CostModel

def Hypergraph.roundTrip : Hypergraph ℚ where
  dimensions := ⟨1, 1, 0⟩
  vertices := #[⟨[1], []⟩, ⟨[1], []⟩]
  hyperedges := #[⟨[0, 1], [1]⟩]
  vertexHyperedges := #[[0], [0]]
  timing := some {
    clockPeriod := 4
    baseHyperedgeSlack := #[4]
    hyperedgeSlack := #[4]
    paths := #[⟨[0, 1, 0], [0, 0], 3, 3⟩]
    vertexPaths := #[[0], [0]]
    hyperedgePaths := #[[0]]
    derived := none }

theorem Hypergraph.reachable_roundTrip : Hypergraph.roundTrip.Reachable := by
  have hempty := Builder.Reachable.withClockPeriod 4 (Builder.Reachable.empty (α := ℚ) 1 1)
  have hv0 := hempty.addVertex [1] [] rfl
  have hv1 := hv0.addVertex [1] [] rfl
  have he0 := hv1.addHyperedge [0, 1] [1] rfl
  have hpath := he0.addPath [0, 1, 0] [0, 0] 3 rfl
  exact .build hpath (by decide +kernel)

theorem CostModel.updateTiming_charges_and_prices_roundTrip :
    Hypergraph.roundTrip.Reachable ∧ CostModel.standard.Admits Hypergraph.roundTrip #[0, 1] ∧
      ∃ after derived,
        CostModel.standard.updateTiming Hypergraph.roundTrip #[0, 1]
          = ⟨{ Hypergraph.roundTrip with timing := some after }, .ok ()⟩ ∧
        after.paths = #[⟨[0, 1, 0], [0, 0], 3, 1⟩] ∧
        after.derived = some derived ∧
        ∃ slack, after.hyperedgeSlack[0]? = some slack ∧ slack ≤ 1 ∧
          derived.hyperedgeWeights[0]?
            = some (CostModel.standard.slackScore slack 4 + derived.pathCosts[0]?.getD 0) := by
  have h : CostModel.standard.Admits Hypergraph.roundTrip #[0, 1] :=
    CostModel.checkSolution_eq_ok.mp rfl
  obtain ⟨after, derived, hupdate, hcharges, hle, hderived, hprices, _⟩ :=
    CostModel.updateTiming_charges_and_prices Hypergraph.reachable_roundTrip rfl h
  have hpaths : after.paths = #[⟨[0, 1, 0], [0, 0], 3, 1⟩] :=
    hcharges.paths.trans (by decide +kernel)
  obtain ⟨slack, hslack, hone⟩ := hle ⟨[0, 1, 0], [0, 0], 3, 1⟩ (by simp [hpaths]) 0 (by simp)
  obtain ⟨slack', hslack', hweight⟩ := hprices.hyperedge 0 Nat.zero_lt_one
  rw [hslack, Option.some.injEq] at hslack'
  refine ⟨Hypergraph.reachable_roundTrip, h, after, derived, hupdate, hpaths, hderived, slack,
    hslack, hone, ?_⟩
  rw [hweight, ← hslack', hcharges.clockPeriod]
  simp [Hypergraph.numPaths, Hypergraph.traversed, Hypergraph.path?, hpaths,
    Finset.filter_singleton]

end CircuitPartition
