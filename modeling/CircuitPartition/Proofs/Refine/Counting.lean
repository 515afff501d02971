import CircuitPartition.Proofs.Refine.Safety

/-!
Refinement that counts pins in words. As long as the degrees are those of the solution, and a word
can count the vertices, it does what it would do with numbers without bound. In any case words stay
words.
-/

namespace CircuitPartition

variable {α : Type} [Scalar α] {model : CostModel α} {graph : Hypergraph α} {counting : Counting}
  {bounds : Balance α} {limits : RefineLimits}

namespace PartitionState.Counted

section Move

variable {state : PartitionState α} (h : state.Counted model graph) (hg : graph.WellFormed)
  (hcovers : counting.Covers graph.numVertices)

include h hg hcovers

theorem move_eq {v target : Nat} (hv : v < graph.numVertices) (ht : target < model.numParts) :
    counting.move graph state v target = state.move graph v target := by
  obtain ⟨x, _, hx, _⟩ := Hypergraph.vertex?_of_lt hv
  unfold PartitionState.move Counting.move
  rw [h.admits.getElem?_of_lt hv, Fault.liftM_some, ok_bind, ok_bind]
  split
  . rfl
  . rw [hx, hg.vertexHyperedges?_of_lt hv]
    simp only [Fault.liftM_some, ok_bind]
    rw [h.netDegrees_eq, foldlM_movePin_incident hg h.admits hcovers ht hv,
      foldlM_movePin_incident hg h.admits (.inl rfl) ht hv]

theorem foldlM_move_eq {vertices : List Nat} {target : Nat}
    (hv : ∀ v ∈ vertices, v < graph.numVertices) (ht : target < model.numParts) :
    vertices.foldlM (fun state v => counting.move graph state v target) state
      =
    vertices.foldlM (fun state v => state.move graph v target) state := by
  induction vertices generalizing state with
  | nil => rfl
  | cons v vertices ih =>
    rw [List.forall_mem_cons] at hv
    rw [List.foldlM_cons, List.foldlM_cons, h.move_eq hg hcovers hv.left ht]
    apply bind_congr_of_ok
    intro next hmove
    exact ih (h.move hg (.inl rfl) hmove) hv.right

theorem commit_eq {move : Gain α} (he : move.hyperedge < graph.numHyperedges)
    (ht : ∀ target, move.target = some target → target < model.numParts) :
    counting.commit model graph state move = model.commit graph state move := by
  unfold CostModel.commit Counting.commit
  rw [PartitionState.unbounded_move]
  split
  . rfl
  . next target htarget =>
    rw [h.admits.movers?_eq hg he, Fault.liftM_some, ok_bind, ok_bind,
      h.foldlM_move_eq hg hcovers hg.lt_of_mem_movers (ht target htarget)]

end Move

variable {pass : Pass α} (h : pass.state.Counted model graph) (hg : graph.WellFormed)
  (hcovers : counting.Covers graph.numVertices)
  (hb : bounds.HasShape model.numParts graph.dimensions.vertex)

include h hg hcovers hb

theorem improve_eq {e : Nat} (he : e < graph.numHyperedges) :
    counting.improve model graph bounds pass e = model.improve graph bounds pass e := by
  obtain ⟨best, hbest, rfl, htarget⟩ := h.bestMove?_exists hg hb he
  unfold CostModel.improve Counting.improve
  rw [CostModel.unbounded_commit, hbest, Fault.liftM_some, ok_bind, ok_bind,
    h.commit_eq hg hcovers he htarget]

theorem visit_eq {maxMoves : Nat} {es : List Nat} (hes : ∀ e ∈ es, e < graph.numHyperedges) :
    counting.visit model graph maxMoves bounds es pass
      =
    model.visit graph maxMoves bounds es pass := by
  induction es generalizing pass with
  | nil => rfl
  | cons e es ih =>
    rw [List.forall_mem_cons] at hes
    rw [CostModel.visit_cons]
    unfold Counting.visit
    apply bind_congr_of_ok
    intro degrees _
    rw [ih h hes.right, h.improve_eq hg hcovers hb hes.left]
    split
    . rfl
    . split
      . rfl
      . apply bind_congr_of_ok
        intro improved himprove
        obtain ⟨best, gain, hcommit⟩ := Counting.commit_of_improve himprove
        exact ih (h.commit hg (.inl rfl) hcommit) hes.right

end PartitionState.Counted

namespace Counting

section Counted

variable {state : PartitionState α} (hg : graph.WellFormed)

include hg

theorem counted_of_pass {pass : Pass α} (hpass : model.pass graph limits bounds state = .ok pass)
    (h : limits.checkConsistency = true ∨ state.netDegrees = model.degreeTable graph state.solution) :
    pass.state.Counted model graph := by
  obtain ⟨hready, hvisit⟩ := visit_of_pass hg hpass
  have hcounted : state.Counted model graph := by
    cases h with
    | inl hcheck => exact (hready.agrees hcheck).toCounted
    | inr heq => exact ⟨hready.shaped, heq⟩
  refine visit_induction ?_ hcounted hvisit
  intro state move gain next hstate hcommit
  exact hstate.commit hg (.inl rfl) hcommit

variable (bounds) (hcovers : counting.Covers graph.numVertices)
  (h : limits.checkConsistency = true ∨ state.netDegrees = model.degreeTable graph state.solution)

include hcovers h

theorem pass_eq :
    counting.pass model graph limits bounds state = model.pass graph limits bounds state := by
  have hvisit (hbounds : bounds.HasShape model.numParts graph.dimensions.vertex)
      (hcounted : state.Counted model graph) :
      counting.visit model graph limits.maxMoves bounds (List.range graph.numHyperedges)
          ⟨state, 0, 0, [], none⟩
        =
      model.visit graph limits.maxMoves bounds (List.range graph.numHyperedges)
        ⟨state, 0, 0, [], none⟩ := by
    let start : Pass α := ⟨state, 0, 0, [], none⟩
    have hstart : start.state.Counted model graph := hcounted
    apply hstart.visit_eq hg hcovers hbounds
    intro e he
    exact List.mem_range.mp he
  unfold CostModel.pass Counting.pass
  rw [CostModel.unbounded_visit]
  apply bind_congr_of_ok
  intro _ hbounds
  rw [Failure.liftM_precondition_eq_ok, CostModel.checkBounds_eq_ok] at hbounds
  split
  . apply bind_congr_of_ok
    intro _ hcheck
    have hagrees := PartitionState.agrees_of_checkConsistency hg hcheck
    rw [hvisit hbounds hagrees.toCounted]
  . next hlimits =>
    apply bind_congr_of_ok
    intro _ hshape
    rw [hvisit hbounds ⟨PartitionState.checkShape_eq_ok.mp hshape, h.resolve_left hlimits⟩]

theorem runPasses_eq (n : Nat) :
    counting.runPasses model graph limits bounds n state
      =
    model.runPasses graph limits bounds n state := by
  induction n generalizing state with
  | zero => rfl
  | succ n ih =>
    rw [CostModel.runPasses_succ]
    unfold runPasses
    rw [pass_eq bounds hg hcovers h]
    split
    . rfl
    . next pass hpass =>
      have hcounted := counted_of_pass hg hpass h
      rw [ih (.inr hcounted.netDegrees_eq)]

theorem refine_eq :
    counting.refine model graph limits bounds state = model.refine graph limits bounds state := by
  unfold CostModel.refine Counting.refine
  rw [CostModel.unbounded_runPasses, runPasses_eq bounds hg hcovers h]

end Counted

def InWords (netDegrees : Array Degrees) : Prop :=
  ∀ degrees ∈ netDegrees, ∀ n ∈ degrees, n < Word.count 64

section InWords

variable (hcounting : counting ≠ .unbounded) (hg : graph.WellFormed)

include hcounting

theorem lt_of_next {n next : Nat} (h : counting.next n = .ok next) : next < Word.count 64 := by
  cases counting with
  | unbounded => exact absurd rfl hcounting
  | stopping =>
    dsimp only [Counting.next] at h
    split at h
    . next hlt =>
      rw [← Except.ok.inj h]
      exact hlt
    . simp at h
  | wrapping =>
    rw [← Except.ok.inj h]
    exact Nat.mod_lt _ (Word.count_pos 64)

omit hcounting in
theorem lt_of_previous {n previous : Nat} (hn : n < Word.count 64)
    (h : counting.previous n = .ok previous) : previous < Word.count 64 := by
  cases n with
  | zero =>
    dsimp only [Counting.previous] at h
    split at h
    . rw [← Except.ok.inj h]
      exact Nat.sub_one_lt_of_lt (Word.count_pos 64)
    . simp at h
  | succ n =>
    rw [← Except.ok.inj h]
    omega

theorem inWords_movePin {source target e : Nat} {table next : Array Degrees} (h : InWords table)
    (hmove : counting.movePin source target table e = .ok next) : InWords next := by
  unfold movePin leave enter at hmove
  simp only [bind_eq_ok, Fault.liftM_eq_ok, pure_eq_ok, Except.ok.injEq] at hmove
  obtain ⟨degrees, hget, _, ⟨n, hn, left, hleft, rfl⟩, _, ⟨m, _, entered, hentered, rfl⟩, rfl⟩ :=
    hmove
  have hdegrees := h degrees (Array.mem_of_getElem? hget)
  have hwithout := forall_mem_set! hdegrees
    (lt_of_previous (hdegrees n (Array.mem_of_getElem? hn)) hleft) source
  have hwith := forall_mem_set! hwithout (lt_of_next hcounting hentered) target
  exact forall_mem_set! h hwith e

theorem inWords_move {state next : PartitionState α} {v target : Nat}
    (h : InWords state.netDegrees) (hmove : counting.move graph state v target = .ok next) :
    InWords next.netDegrees := by
  cases PartitionState.move_cases hmove with
  | inl heq =>
    rw [heq]
    exact h
  | inr hmoved =>
    obtain ⟨_, netDegrees, _, _, _, _, hfold, _, rfl⟩ := hmoved
    refine foldlM_induction ?_ h hfold
    intro table e _ next htable hpin
    exact inWords_movePin hcounting htable hpin

include hg

theorem inWords_commit {state next : PartitionState α} {move : Gain α} {gain : α}
    (hadmits : model.Admits graph state.solution) (h : InWords state.netDegrees)
    (hcommit : counting.commit model graph state move = .ok (gain, next)) :
    InWords next.netDegrees := by
  cases CostModel.commit_cases hg hadmits hcommit with
  | inl heq =>
    rw [heq]
    exact h
  | inr hmoved =>
    obtain ⟨_, moved, pathCosts, hmoved, _, rfl⟩ := hmoved
    refine foldlM_induction (P := fun state => InWords state.netDegrees) ?_ h hmoved
    intro state v _ next hstate hmove
    exact inWords_move hcounting hstate hmove

theorem inWords_pass {state : PartitionState α} {pass : Pass α} (h : InWords state.netDegrees)
    (hpass : counting.pass model graph limits bounds state = .ok pass) :
    InWords pass.state.netDegrees := by
  obtain ⟨hready, hvisit⟩ := visit_of_pass hg hpass
  refine (visit_induction (P := fun state => state.Shaped model graph ∧ InWords state.netDegrees)
    ?_ ⟨hready.shaped, h⟩ hvisit).right
  intro state move gain next hstate hcommit
  exact ⟨hstate.left.commit hg hcommit,
    inWords_commit hcounting hg hstate.left.admits hstate.right hcommit⟩

theorem inWords_runPasses {state : PartitionState α} (h : InWords state.netDegrees) (n : Nat) :
    InWords ((counting.runPasses model graph limits bounds n state).reached state).netDegrees := by
  induction n generalizing state with
  | zero => exact h
  | succ n ih =>
    unfold runPasses
    split
    . exact h
    . next pass hpass =>
      have hreached := inWords_pass hcounting hg h hpass
      split
      . exact hreached
      . rw [Passes.reached_cons]
        exact ih hreached

theorem inWords_refine {state : PartitionState α} (h : InWords state.netDegrees) :
    InWords (counting.refine model graph limits bounds state).state.netDegrees := by
  have hreached : InWords ((counting.runPasses model graph limits bounds limits.maxPasses
      state).reached state).netDegrees := inWords_runPasses hcounting hg h limits.maxPasses
  unfold refine
  split
  . exact h
  . dsimp only
    split
    . exact hreached
    . exact hreached
    . exact hreached

end InWords

end Counting

end CircuitPartition
