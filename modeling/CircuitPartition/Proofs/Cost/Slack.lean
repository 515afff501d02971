import CircuitPartition.Proofs.Cost.Query
import CircuitPartition.Proofs.Graph.Reachable
import Mathlib.Data.List.TakeWhile

/-!
What a model makes of the slacks, as plain functions: the costs that it derives from the current
ones, and what is left of the original ones when the cuts of a solution are charged. The slacks are
set one by one, up to the first that is not finite.
-/

namespace CircuitPartition

variable {α : Type}

section Fill

variable {β : Type} (write : β → α → β) (slots : Array β)

def fill (values : List α) : Array β :=
  slots.mapIdx fun i slot => values[i]?.elim slot (write slot)

theorem getElem?_fill (values : List α) (i : Nat) :
    (fill write slots values)[i]? = slots[i]?.map fun slot => values[i]?.elim slot (write slot) := by
  unfold fill
  rw [Array.getElem?_mapIdx]

theorem fill_nil : fill write slots [] = slots := by
  apply Array.ext_getElem?
  intro i
  rw [getElem?_fill]
  simp

theorem fill_append_singleton (done : List α) (value : α) :
    (fill write slots done).modify done.length (write · value)
      =
    fill write slots (done ++ [value]) := by
  apply Array.ext_getElem?
  intro i
  rw [Array.getElem?_modify, getElem?_fill, getElem?_fill]
  split
  . next heq =>
    subst heq
    simp
  . next hne =>
    rw [List.getElem?_append]
    split
    . rfl
    . next hge =>
      have hdone : done[i]? = none := List.getElem?_eq_none (by omega)
      have hlast : [value][i - done.length]? = none :=
        List.getElem?_eq_none (by rw [List.length_singleton]; omega)
      rw [hdone, hlast]

theorem set!_eq_modify_const (i : Nat) (slot : β) :
    slots.set! i slot = slots.modify i (fun _ => slot) := by
  apply Array.ext_getElem?
  intro j
  rw [Array.set!_eq_setIfInBounds, Array.getElem?_setIfInBounds, Array.getElem?_modify]
  split
  . next heq =>
    subst heq
    cases Nat.lt_or_ge i slots.size with
    | inl hi => simp [hi]
    | inr hi => simp [hi]
  . rfl

end Fill

namespace Timing

def slacks (timing : Timing α) : Slacks α where
  path := timing.paths.toList.map (·.slack)
  hyperedge := timing.hyperedgeSlack.toList

def traversing (timing : Timing α) (e : Nat) : List Nat :=
  timing.hyperedgePaths[e]?.getD []

def withPathSlacks (timing : Timing α) (slacks : List α) : Timing α :=
  { timing with paths := fill (fun path slack => { path with slack }) timing.paths slacks }

def withHyperedgeSlacks (timing : Timing α) (slacks : List α) : Timing α :=
  { timing with hyperedgeSlack := fill (fun _ slack => slack) timing.hyperedgeSlack slacks }

def withSlacks (timing : Timing α) (slacks : Slacks α) : Timing α :=
  (timing.withPathSlacks slacks.path).withHyperedgeSlacks slacks.hyperedge

variable [Scalar α]

theorem assign_eq {set : Timing α → Nat → α → Except (GraphError α) (Timing α)} {what : Quantity}
    {filled : List α → Timing α} {count : Nat}
    (hset : ∀ (done : List α) value, done.length < count → set (filled done) done.length value
      = if Scalar.isFinite value then .ok (filled (done ++ [value])) else .error (.nonFinite what 0))
    (values done : List α) (hcount : done.length + values.length ≤ count) :
    Timing.assign set done.length values (filled done)
      =
    (filled (done ++ values.takeWhile Scalar.isFinite),
      if values.all Scalar.isFinite then .ok () else .error (.nonFinite what 0)) := by
  induction values generalizing done with
  | nil =>
    rw [List.takeWhile_nil, List.append_nil]
    rfl
  | cons value values ih =>
    rw [List.length_cons] at hcount
    unfold Timing.assign
    rw [hset done value (by omega), List.takeWhile_cons, List.all_cons]
    cases hfinite : Scalar.isFinite value with
    | true =>
      have := ih (done ++ [value]) (by rw [List.length_append, List.length_singleton]; omega)
      rw [List.length_append, List.length_singleton] at this
      simpa using this
    | false => simp

theorem requireFinite_singleton (what : Quantity) (value : α) :
    what.requireFinite [value]
      =
    if Scalar.isFinite value then .ok () else .error (.nonFinite what 0) := by
  unfold Quantity.requireFinite
  cases hfinite : Scalar.isFinite value with
  | true => simp [hfinite]
  | false => simp [hfinite]

variable (timing : Timing α)

theorem assign_setPathSlack {slacks : List α} (h : slacks.length = timing.paths.size) :
    timing.assign setPathSlack 0 slacks
      =
    (timing.withPathSlacks (slacks.takeWhile Scalar.isFinite),
      if slacks.all Scalar.isFinite then .ok () else .error (.nonFinite .pathSlack 0)) := by
  have hset (done : List α) (slack : α) (hlt : done.length < timing.paths.size) :
      setPathSlack (timing.withPathSlacks done) done.length slack
        =
      if Scalar.isFinite slack then .ok (timing.withPathSlacks (done ++ [slack]))
      else .error (.nonFinite .pathSlack 0) := by
    have hrequire : Entity.path.require done.length (timing.withPathSlacks done).paths.size
        = (.ok () : Except (GraphError α) Unit) :=
      Entity.require_eq_ok.mpr (by simpa [withPathSlacks, fill] using hlt)
    unfold setPathSlack
    rw [hrequire, ok_bind, requireFinite_singleton]
    split
    . unfold withPathSlacks
      rw [← fill_append_singleton]
      rfl
    . rfl
  have := assign_eq hset slacks [] (by rw [List.length_nil]; omega)
  rwa [List.nil_append, withPathSlacks, fill_nil] at this

theorem assign_setHyperedgeSlack {slacks : List α} (h : slacks.length = timing.hyperedgeSlack.size) :
    timing.assign setHyperedgeSlack 0 slacks
      =
    (timing.withHyperedgeSlacks (slacks.takeWhile Scalar.isFinite),
      if slacks.all Scalar.isFinite then .ok () else .error (.nonFinite .hyperedgeSlack 0)) := by
  have hset (done : List α) (slack : α) (hlt : done.length < timing.hyperedgeSlack.size) :
      setHyperedgeSlack (timing.withHyperedgeSlacks done) done.length slack
        =
      if Scalar.isFinite slack then .ok (timing.withHyperedgeSlacks (done ++ [slack]))
      else .error (.nonFinite .hyperedgeSlack 0) := by
    have hrequire : Entity.hyperedge.require done.length
          (timing.withHyperedgeSlacks done).hyperedgeSlack.size
        = (.ok () : Except (GraphError α) Unit) :=
      Entity.require_eq_ok.mpr (by simpa [withHyperedgeSlacks, fill] using hlt)
    unfold setHyperedgeSlack
    rw [hrequire, ok_bind, requireFinite_singleton]
    split
    . unfold withHyperedgeSlacks
      rw [← fill_append_singleton, set!_eq_modify_const]
      rfl
    . rfl
  have := assign_eq hset slacks [] (by rw [List.length_nil]; omega)
  rwa [List.nil_append, withHyperedgeSlacks, fill_nil] at this

end Timing

namespace CostModel

variable [Scalar α] (model : CostModel α)

def pick (values : List α) (paths : List Nat) : List α :=
  paths.map (values[·]?.getD 0)

theorem mapM_getElem?_eq_pick {values : List α} {paths : List Nat}
    (h : ∀ p ∈ paths, p < values.length) : paths.mapM (values[·]?) = some (pick values paths) := by
  apply mapM_of_found
  intro p hp
  have := h p hp
  simp [this]

def hyperedgeScore (clockPeriod slack : α) (pathScores : List α) : α :=
  model.slackScore slack clockPeriod + Scalar.sum pathScores

def derivedCosts (clockPeriod : α) (slacks : Slacks α) (traversing : Nat → List Nat) :
    DerivedCosts α :=
  let scores := slacks.path.map (model.slackScore · clockPeriod)
  let weights := slacks.hyperedge.zipIdx.map fun (slack, e) =>
    model.hyperedgeScore clockPeriod slack (pick scores (traversing e))
  ⟨scores.toArray, weights.toArray⟩

def priced (graph : Hypergraph α) : Hypergraph α :=
  { graph with
    timing := graph.timing.map fun timing =>
      { timing with
        derived := some (model.derivedCosts timing.clockPeriod timing.slacks timing.traversing) } }

section Charge

variable (graph : Hypergraph α) (solution : Solution)

def chargedPath (path : TimingPath α) : α :=
  path.baseSlack
    - model.cutDelay * ((path.hyperedges.filter (graph.cut solution.blockOf)).length : α)

def chargedHyperedge (e : Nat) (base : α) (pathSlacks : List α) : α :=
  pathSlacks.foldl Scalar.min
    (if graph.cut solution.blockOf e then base - model.cutDelay else base)

def chargedSlacks (timing : Timing α) : Slacks α :=
  let path := timing.paths.toList.map (model.chargedPath graph solution)
  let hyperedge := timing.baseHyperedgeSlack.toList.zipIdx.map fun (base, e) =>
    model.chargedHyperedge graph solution e base (pick path (timing.traversing e))
  ⟨path, hyperedge⟩

theorem length_chargedSlacks_path (timing : Timing α) :
    (model.chargedSlacks graph solution timing).path.length = timing.paths.size := by
  simp [chargedSlacks]

end Charge

end CostModel

theorem Hypergraph.traversed_eq {graph : Hypergraph α} {timing : Timing α}
    (ht : graph.timing = some timing) (p : Nat) :
    graph.traversed p = (timing.paths[p]?.map (·.hyperedges)).getD [] := by
  simp [traversed, path?, ht]

namespace Hypergraph.WellFormed

variable {graph : Hypergraph α} (hg : graph.WellFormed) {timing : Timing α}
  (ht : graph.timing = some timing) {e : Nat} (he : e < graph.numHyperedges)

include hg ht he

theorem inverts_traversing :
    timing.hyperedgePaths[e]? = some (timing.traversing e) ∧
      (timing.traversing e).Pairwise (· < ·) ∧
      ∀ p, p ∈ timing.traversing e ↔ e ∈ graph.traversed p := by
  obtain ⟨set, hset, hinverts⟩ := hg.inverts_hyperedgePaths e he
  have hindex : timing.hyperedgePaths[e]? = some set := by
    simpa [hyperedgePaths?, ht] using hset
  have htraversing : timing.traversing e = set := by simp [Timing.traversing, hindex]
  rw [htraversing]
  exact ⟨hindex, hinverts⟩

theorem hyperedgePaths?_of_lt :
    timing.hyperedgePaths[e]? = some (timing.traversing e) ∧
      ∀ p ∈ timing.traversing e, p < timing.paths.size := by
  obtain ⟨hindex, _, hmem⟩ := hg.inverts_traversing ht he
  refine ⟨hindex, ?_⟩
  intro p hp
  rw [hmem] at hp
  by_contra hlt
  have hnone : timing.paths[p]? = none := Array.getElem?_eq_none (by omega)
  simp [traversed_eq ht, hnone] at hp

end Hypergraph.WellFormed

theorem Hypergraph.WellFormed.steps [Scalar α] {graph : Hypergraph α} (hg : graph.WellFormed)
    {timing next : Timing α} (ht : graph.timing = some timing)
    (h : Relation.ReflTransGen Timing.Step timing next) :
    { graph with timing := some next }.WellFormed := by
  apply keeps_steps _ hg ht h
  intro graph timing next hg ht hstep
  exact hg.withTiming ((hg.timing timing ht).step hstep)

namespace CostModel

variable [Scalar α] (model : CostModel α) {graph : Hypergraph α} (hg : graph.WellFormed)
  {timing : Timing α}

include hg

theorem deriveCosts?_eq (ht : graph.timing = some timing) :
    model.deriveCosts? timing
      =
    some (model.derivedCosts timing.clockPeriod timing.slacks timing.traversing) := by
  have hscores : (timing.paths.map fun path => model.slackScore path.slack timing.clockPeriod)
      = (timing.slacks.path.map (model.slackScore · timing.clockPeriod)).toArray := by
    simp [Timing.slacks, ← Array.toList_inj]
  unfold deriveCosts? derivedCosts
  rw [hscores]
  dsimp only
  rw [mapM_of_found (g := fun (slack, e) => model.hyperedgeScore timing.clockPeriod slack
    (pick (timing.slacks.path.map (model.slackScore · timing.clockPeriod)) (timing.traversing e)))]
  . rfl
  . rintro ⟨slack, e⟩ hmem
    have he : e < graph.numHyperedges := by
      rw [← (hg.timing timing ht).hyperedgeSlack_size]
      exact List.snd_lt_of_mem_zipIdx hmem
    obtain ⟨hindex, hlt⟩ := hg.hyperedgePaths?_of_lt ht he
    simp only [List.getElem?_toArray]
    rw [hindex, some_bind, mapM_getElem?_eq_pick (by simpa [Timing.slacks] using hlt)]
    rfl

theorem initializeTiming_eq : model.initializeTiming graph = .ok (model.priced graph) := by
  unfold initializeTiming priced
  split
  . next ht =>
    rw [ht, Option.map_none, ← ht]
    rfl
  . next timing ht =>
    have hset : timing.setDerived
          (model.derivedCosts timing.clockPeriod timing.slacks timing.traversing)
        = .ok { timing with
          derived := some
            (model.derivedCosts timing.clockPeriod timing.slacks timing.traversing) } := by
      rw [Timing.setDerived_eq_ok]
      simp [derivedCosts, Timing.slacks]
    rw [model.deriveCosts?_eq hg ht, Failure.ofLookup_some, ok_bind, hset, ht]
    rfl

theorem chargedSlacks?_eq (ht : graph.timing = some timing) {solution : Solution}
    (h : model.Admits graph solution) :
    model.chargedSlacks? graph timing solution
      =
    some (model.chargedSlacks graph solution timing) := by
  let cut := ((List.range graph.numHyperedges).map (graph.cut solution.blockOf)).toArray
  have hcut : (List.range graph.numHyperedges).mapM (graph.isCut? (solution[·]?))
      = some cut.toList := by
    apply mapM_of_found
    intro e he
    exact Hypergraph.isCut?_of_found (List.mem_range.mp he) (h.found_of_mem_pins hg)
  have hlookup {e : Nat} (he : e < graph.numHyperedges) :
      cut[e]? = some (graph.cut solution.blockOf e) := by
    simp [cut, he]
  have hpaths : (timing.paths.toList.mapM fun path => do
        let crossed ← path.hyperedges.filterM (cut[·]?)
        return path.baseSlack - model.cutDelay * (crossed.length : α))
      = some (timing.paths.toList.map (model.chargedPath graph solution)) := by
    apply mapM_of_found
    intro path hpath
    rw [filterM_of_found (p := graph.cut solution.blockOf)]
    . rfl
    . intro e he
      exact hlookup ((hg.timing timing ht).path_hyperedges path (by simpa using hpath) e he)
  unfold chargedSlacks? chargedSlacks
  rw [hcut, some_bind]
  dsimp only
  rw [hpaths, some_bind, mapM_of_found (g := fun (base, e) =>
    model.chargedHyperedge graph solution e base
      (pick (timing.paths.toList.map (model.chargedPath graph solution)) (timing.traversing e)))]
  . rfl
  . rintro ⟨base, e⟩ hmem
    have he : e < graph.numHyperedges := by
      rw [← (hg.timing timing ht).baseHyperedgeSlack_size]
      exact List.snd_lt_of_mem_zipIdx hmem
    obtain ⟨hindex, hlt⟩ := hg.hyperedgePaths?_of_lt ht he
    dsimp only
    rw [hlookup he, some_bind, hindex, some_bind, mapM_getElem?_eq_pick (by simpa using hlt)]
    rfl

theorem length_chargedSlacks_hyperedge (ht : graph.timing = some timing) (solution : Solution) :
    (model.chargedSlacks graph solution timing).hyperedge.length = timing.hyperedgeSlack.size := by
  rw [(hg.timing timing ht).hyperedgeSlack_size, ← (hg.timing timing ht).baseHyperedgeSlack_size]
  simp [chargedSlacks]

theorem updateTiming_of_admits (ht : graph.timing = some timing) {solution : Solution}
    (h : model.Admits graph solution) :
    model.updateTiming graph solution
      =
    let slacks := model.chargedSlacks graph solution timing
    if slacks.path.all Scalar.isFinite then
      if slacks.hyperedge.all Scalar.isFinite then
        ⟨model.priced { graph with timing := some (timing.withSlacks slacks) }, .ok ()⟩
      else
        ⟨{ graph with
          timing := some ((timing.withPathSlacks slacks.path).withHyperedgeSlacks
            (slacks.hyperedge.takeWhile Scalar.isFinite)) },
          .error (.graph (.nonFinite .hyperedgeSlack 0))⟩
    else
      ⟨{ graph with
        timing := some (timing.withPathSlacks (slacks.path.takeWhile Scalar.isFinite)) },
        .error (.graph (.nonFinite .pathSlack 0))⟩ := by
  dsimp only
  have hpath := timing.assign_setPathSlack (model.length_chargedSlacks_path graph solution timing)
  have hhyperedge := (timing.withPathSlacks (model.chargedSlacks graph solution timing).path)
    |>.assign_setHyperedgeSlack (model.length_chargedSlacks_hyperedge hg ht solution)
  unfold updateTiming
  rw [checkSolution_eq_ok.mpr h, ht]
  dsimp only
  rw [model.chargedSlacks?_eq hg ht h]
  dsimp only
  generalize model.chargedSlacks graph solution timing = slacks at hpath hhyperedge ⊢
  by_cases hpaths : slacks.path.all Scalar.isFinite
  . have hsteps := Timing.assign_steps (fun _ p slack _ => Timing.Step.setPathSlack p slack) 0
      slacks.path timing
    have hall := List.takeWhile_eq_self_iff.mpr (List.all_eq_true.mp hpaths)
    rw [if_pos hpaths, hall] at hpath
    rw [hpath] at hsteps ⊢
    dsimp only
    rw [if_pos hpaths]
    by_cases hhyperedges : slacks.hyperedge.all Scalar.isFinite
    . have hsteps' := Timing.assign_steps
        (fun _ e slack _ => Timing.Step.setHyperedgeSlack e slack) 0 slacks.hyperedge
        (timing.withPathSlacks slacks.path)
      have hall := List.takeWhile_eq_self_iff.mpr (List.all_eq_true.mp hhyperedges)
      rw [if_pos hhyperedges, hall] at hhyperedge
      rw [hhyperedge] at hsteps' ⊢
      dsimp only at hsteps hsteps' ⊢
      rw [model.initializeTiming_eq (hg.steps ht (hsteps.trans hsteps')), if_pos hhyperedges]
      rfl
    . rw [hhyperedge, if_neg hhyperedges, if_neg hhyperedges]
  . rw [hpath, if_neg hpaths, if_neg hpaths]

theorem updateTiming_split (ht : graph.timing = some timing) {solution : Solution}
    (h : model.Admits graph solution) :
    let slacks := model.chargedSlacks graph solution timing
    let update := model.updateTiming graph solution
    ((∀ slack ∈ slacks.path, Scalar.isFinite slack = true) ∧
      (∀ slack ∈ slacks.hyperedge, Scalar.isFinite slack = true) ∧
      update.outcome = .ok ()) ∨
    ((∃ slack ∈ slacks.path, Scalar.isFinite slack = false) ∧
      update = ⟨{ graph with
        timing := some (timing.withPathSlacks (slacks.path.takeWhile Scalar.isFinite)) },
        .error (.graph (.nonFinite .pathSlack 0))⟩) ∨
    ((∀ slack ∈ slacks.path, Scalar.isFinite slack = true) ∧
      (∃ slack ∈ slacks.hyperedge, Scalar.isFinite slack = false) ∧
      update = ⟨{ graph with
        timing := some ((timing.withPathSlacks slacks.path).withHyperedgeSlacks
          (slacks.hyperedge.takeWhile Scalar.isFinite)) },
        .error (.graph (.nonFinite .hyperedgeSlack 0))⟩) := by
  rw [model.updateTiming_of_admits hg ht h]
  dsimp only
  by_cases hpaths : (model.chargedSlacks graph solution timing).path.all Scalar.isFinite
  . by_cases hhyperedges : (model.chargedSlacks graph solution timing).hyperedge.all Scalar.isFinite
    . rw [if_pos hpaths, if_pos hhyperedges]
      exact .inl ⟨List.all_eq_true.mp hpaths, List.all_eq_true.mp hhyperedges, rfl⟩
    . rw [if_pos hpaths, if_neg hhyperedges]
      rw [Bool.not_eq_true, List.all_eq_false] at hhyperedges
      simp only [Bool.not_eq_true] at hhyperedges
      exact .inr (.inr ⟨List.all_eq_true.mp hpaths, hhyperedges, rfl⟩)
  . rw [if_neg hpaths]
    rw [Bool.not_eq_true, List.all_eq_false] at hpaths
    simp only [Bool.not_eq_true] at hpaths
    exact .inr (.inl ⟨hpaths, rfl⟩)

end CostModel

end CircuitPartition
