import CircuitPartition.Proofs.Partition.Safety
import CircuitPartition.Proofs.Refine.Atomicity

/-!
Which faults refinement can run into, whatever state and bounds it is given: none but a missing pin,
and not even that one if the state is checked before each pass.
-/

namespace CircuitPartition

theorem foldlM_exists_of {α β : Type} {f : β → α → Option β} {P : β → Prop} {as : List α}
    (hstep : ∀ b, ∀ a ∈ as, P b → ∃ next, f b a = some next ∧ P next) {b : β} (hb : P b) :
    ∃ final, as.foldlM f b = some final ∧ P final := by
  induction as generalizing b with
  | nil => exact ⟨b, rfl, hb⟩
  | cons a as ih =>
    obtain ⟨next, hnext, hP⟩ := hstep b a List.mem_cons_self hb
    rw [List.foldlM_cons, hnext, some_bind]
    apply ih _ hP
    intro b a ha
    exact hstep b a (List.mem_cons_of_mem _ ha)

theorem foldlM_exists {α β : Type} {f : β → α → Option β} {as : List α}
    (hstep : ∀ b, ∀ a ∈ as, ∃ next, f b a = some next) {b : β} :
    ∃ final, as.foldlM f b = some final := by
  have hrun : ∃ final, as.foldlM f b = some final ∧ True := by
    apply foldlM_exists_of _ trivial
    intro b a ha _
    obtain ⟨next, hnext⟩ := hstep b a ha
    exact ⟨next, hnext, trivial⟩
  obtain ⟨final, hfinal, _⟩ := hrun
  exact ⟨final, hfinal⟩

variable {α : Type} [Scalar α] {model : CostModel α} {graph : Hypergraph α}

namespace PartitionState.Shaped

variable {state : PartitionState α} (h : state.Shaped model graph) (hg : graph.WellFormed)
  {e target : Nat}

include h hg

theorem cutGain?_exists (gain : α) {e' : Nat} (he' : e' < graph.numHyperedges) :
    ∃ next, model.cutGain? graph state (CostModel.tentative state.solution (graph.pins e) target)
      gain e' = some next := by
  have hdegrees : e' < state.netDegrees.size := by
    rw [h.size_netDegrees]
    exact he'
  unfold CostModel.cutGain?
  rw [Array.getElem?_eq_getElem hdegrees, some_bind, h.admits.isCut?_tentative hg he', some_bind]
  split
  . exact ⟨gain, rfl⟩
  . rw [hg.hyperedgeCost?_of_lt he']
    exact ⟨_, rfl⟩

theorem pathGain?_exists (ht : target < model.numParts) (gain : α) {p : Nat}
    (hp : p < graph.numPaths) :
    ∃ next, model.pathGain? graph state (CostModel.tentative state.solution (graph.pins e) target)
      gain p = some next := by
  have hcost : p < state.pathCosts.size := by
    rw [h.size_pathCosts]
    exact hp
  unfold CostModel.pathGain?
  rw [Array.getElem?_eq_getElem hcost, some_bind, h.admits.pathCostWith?_tentative hg ht hp]
  exact ⟨_, rfl⟩

theorem gain?_exists (he : e < graph.numHyperedges) (ht : target < model.numParts) :
    ∃ gain, model.gain? graph state e target = some gain ∧ gain.hyperedge = e ∧
      gain.target = some target := by
  obtain ⟨hyperedge, _, hsome, hpins⟩ := Hypergraph.hyperedge?_of_lt he
  have hmovers : ∀ v ∈ graph.movers state.solution e target, v < graph.numVertices :=
    hg.lt_of_mem_movers
  have hcut : ∃ cut, (graph.touchedHyperedges (graph.movers state.solution e target)).foldlM
      (model.cutGain? graph state (CostModel.tentative state.solution (graph.pins e) target)) 0
        = some cut :=
    foldlM_exists fun gain e' he' =>
      h.cutGain?_exists hg gain (hg.lt_of_mem_touchedHyperedges hmovers he')
  obtain ⟨cut, hcut⟩ := hcut
  have hpath : ∃ gain, (graph.touchedPaths (graph.movers state.solution e target)).foldlM
      (model.pathGain? graph state (CostModel.tentative state.solution (graph.pins e) target)) cut
        = some gain :=
    foldlM_exists fun gain p hp =>
      h.pathGain?_exists hg ht gain (hg.lt_of_mem_touchedPaths hmovers hp)
  obtain ⟨gain, hgain⟩ := hpath
  unfold CostModel.gain?
  rw [hsome, some_bind, ← hpins, h.admits.movers?_eq hg he, some_bind,
    hg.touchedHyperedges?_eq hmovers, some_bind, hcut, some_bind, hg.touchedPaths?_eq hmovers,
    some_bind, hgain, some_bind, hg.pinNormSum?_of_lt he, some_bind]
  exact ⟨_, rfl, rfl, rfl⟩

variable {bounds : Balance α} (hb : bounds.HasShape model.numParts graph.dimensions.vertex)

include hb

theorem bestMove?_exists (he : e < graph.numHyperedges) :
    ∃ best, model.bestMove? graph bounds state e = some best ∧ best.hyperedge = e ∧
      ∀ target, best.target = some target → target < model.numParts := by
  unfold CostModel.bestMove?
  rw [hg.pinNormSum?_of_lt he, some_bind]
  apply foldlM_exists_of (P := fun best : Gain α => best.hyperedge = e ∧
    ∀ target, best.target = some target → target < model.numParts)
  . intro best target htarget hbest
    rw [List.mem_range] at htarget
    obtain ⟨gain, hgain, hhyperedge, hinto⟩ := h.gain?_exists hg he htarget
    unfold CostModel.considerTarget?
    rw [h.admits.isLegal?_eq hg h.hasShape hb he htarget, some_bind, hgain]
    split
    . exact ⟨best, rfl, hbest⟩
    . rw [some_bind]
      split
      . refine ⟨gain, rfl, hhyperedge, ?_⟩
        intro other hother
        rw [hinto, Option.some.injEq] at hother
        omega
      . exact ⟨best, rfl, hbest⟩
  . exact ⟨rfl, nofun⟩

end PartitionState.Shaped

namespace PartitionState.Secured

variable {counting : Counting} {secure : Prop} (hg : graph.WellFormed)

include hg

theorem commit {state next : PartitionState α} (h : state.Secured counting model graph secure)
    {move : Gain α} {gain : α}
    (hcommit : counting.commit model graph state move = .ok (gain, next)) :
    next.Secured counting model graph secure :=
  ⟨h.shaped.commit hg hcommit,
    fun hsecure => (h.counted hsecure).commit hg (h.covers hsecure) hcommit, h.covers⟩

theorem confined_commit {state : PartitionState α} (h : state.Secured counting model graph secure)
    {move : Gain α} (he : move.hyperedge < graph.numHyperedges)
    (ht : ∀ target, move.target = some target → target < model.numParts) :
    Confined (counting.Risks secure) (counting.commit model graph state move) := by
  unfold Counting.commit
  split
  . apply Confined.ok
  . next target htarget =>
    have hmovers : ∀ v ∈ graph.movers state.solution move.hyperedge target, v < graph.numVertices :=
      hg.lt_of_mem_movers
    rw [h.shaped.admits.movers?_eq hg he, Fault.liftM_some, ok_bind]
    apply Confined.bind
    . refine Confined.foldlM (P := fun state => state.Secured counting model graph secure) ?_ ?_ h
      . intro state v hv hstate
        exact hstate.confined_move hg (hmovers v hv) (ht target htarget)
      . intro state v _ next hstate hmove
        exact hstate.move hg hmove
    . intro moved hmoved
      obtain ⟨next, hnext⟩ := (h.shaped.foldlM_move hmoved).refresh?_of_lt hg
        fun p hp => hg.lt_of_mem_touchedPaths hmovers hp
      rw [hg.touchedPaths?_eq hmovers, Fault.liftM_some, ok_bind, hnext, Fault.liftM_some, ok_bind]
      apply Confined.ok

variable {bounds : Balance α} (hb : bounds.HasShape model.numParts graph.dimensions.vertex)
  {pass : Pass α} (h : pass.state.Secured counting model graph secure)

include hb h

theorem confined_improve {e : Nat} (he : e < graph.numHyperedges) :
    Confined (counting.Risks secure) (counting.improve model graph bounds pass e) := by
  obtain ⟨best, hbest, rfl, htarget⟩ := h.shaped.bestMove?_exists hg hb he
  unfold Counting.improve
  rw [hbest, Fault.liftM_some, ok_bind]
  apply (confined_commit hg h he htarget).bind
  intro committed _
  apply Confined.ok

theorem confined_visit {maxMoves : Nat} {es : List Nat} (hes : ∀ e ∈ es, e < graph.numHyperedges) :
    Confined (counting.Risks secure) (counting.visit model graph maxMoves bounds es pass) := by
  induction es generalizing pass with
  | nil => exact Confined.ok pass
  | cons e es ih =>
    rw [List.forall_mem_cons] at hes
    have hdegrees : e < pass.state.netDegrees.size := by
      rw [h.shaped.size_netDegrees]
      exact hes.left
    unfold Counting.visit
    rw [Array.getElem?_eq_getElem hdegrees, Fault.liftM_some, ok_bind]
    split
    . exact ih h hes.right
    . split
      . apply Confined.ok
      . apply (confined_improve hg hb h hes.left).bind
        intro improved himprove
        obtain ⟨best, gain, hcommit⟩ := Counting.commit_of_improve himprove
        exact ih (commit hg h hcommit) hes.right

end PartitionState.Secured

def RefineLimits.Secures (limits : RefineLimits) (counting : Counting) (graph : Hypergraph α) :
    Prop :=
  limits.checkConsistency = true ∧ counting.Covers graph.numVertices

namespace Counting

variable (counting : Counting) (model) (hg : graph.WellFormed) (limits : RefineLimits)
  (bounds : Balance α)

include hg

theorem safe_pass (state : PartitionState α) :
    Safe (model.Admits graph state.solution) (counting.Risks (limits.Secures counting graph))
      (counting.pass model graph limits bounds state) := by
  unfold pass
  cases hbounds : model.checkBounds graph bounds with
  | error cause => exact .refusal nofun
  | ok _ =>
    rw [CostModel.checkBounds_eq_ok] at hbounds
    have hvisit (h : state.Secured counting model graph (limits.Secures counting graph)) :
        Safe (model.Admits graph state.solution) (counting.Risks (limits.Secures counting graph))
          (liftM (counting.visit model graph limits.maxMoves bounds (List.range graph.numHyperedges)
            ⟨state, 0, 0, [], none⟩) : Except (Failure α) (Pass α)) := by
      apply Confined.safe _ h.shaped.admits
      apply PartitionState.Secured.confined_visit hg hbounds h
      intro e he
      exact List.mem_range.mp he
    rw [Failure.liftM_precondition_ok, ok_bind]
    split
    . apply (state.safe_checkConsistency model graph hg _).bind
      intro _ hcheck
      have hagrees := PartitionState.agrees_of_checkConsistency hg hcheck
      exact hvisit ⟨hagrees.toShaped, fun _ => hagrees.toCounted, And.right⟩
    . next hlimits =>
      apply (state.safe_checkShape model graph _).bind
      intro _ hshape
      exact hvisit ⟨PartitionState.checkShape_eq_ok.mp hshape,
        fun hsecure => absurd hsecure.left hlimits, And.right⟩

theorem fault_runPasses (n : Nat) (state : PartitionState α) {fault : Fault}
    (h : (counting.runPasses model graph limits bounds n state).failure = some (.fault fault)) :
    counting.Risks (limits.Secures counting graph) fault := by
  induction n generalizing state with
  | zero => simp [runPasses] at h
  | succ n ih =>
    unfold runPasses at h
    split at h
    . next failure hpass =>
      rw [Option.some.injEq] at h
      rw [h] at hpass
      exact (counting.safe_pass model hg limits bounds state).fault fault hpass
    . split at h
      . simp at h
      . exact ih _ h

theorem safe_refine (state : PartitionState α) :
    Safe (model.Admits graph state.solution) (counting.Risks (limits.Secures counting graph))
      (counting.refine model graph limits bounds state).outcome := by
  have hbefore := (model.guarded_score state.solution hg).safe
    (counting.Risks (limits.Secures counting graph))
  unfold refine
  cases hscore : model.score graph state.solution with
  | error failure =>
    rw [hscore] at hbefore
    exact hbefore.error
  | ok before =>
    rw [hscore] at hbefore
    refine ⟨fun hnot => absurd hbefore.fits_of_ok hnot, ?_⟩
    intro fault hfault
    dsimp only at hfault
    split at hfault
    . next failure hfailure =>
      rw [Except.error.inj hfault] at hfailure
      exact counting.fault_runPasses model hg limits bounds limits.maxPasses state hfailure
    . next failure _ hafter =>
      rw [Except.error.inj hfault] at hafter
      exact ((model.guarded_score _ hg).safe _).fault fault hafter
    . simp at hfault

end Counting

end CircuitPartition
