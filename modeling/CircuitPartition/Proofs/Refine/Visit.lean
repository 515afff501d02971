import CircuitPartition.Proofs.Refine.Atomicity

/-!
A pass hyperedge by hyperedge: how it stands before each of them has its turn, which ones it finds
cut by then and tries, and the same without a budget of moves.
-/

namespace CircuitPartition

variable {α : Type}

namespace Pass

def start [Scalar α] (state : PartitionState α) : Pass α :=
  ⟨state, 0, 0, [], none⟩

def finds (pass : Pass α) (e : Nat) : Bool :=
  pass.stoppedAt.isNone && pass.state.netDegrees[e]?.any (1 < ·.spanned)

def tries (maxMoves : Nat) (pass : Pass α) (e : Nat) : Bool :=
  pass.finds e && pass.visited + 1 < maxMoves

theorem finds_iff {pass : Pass α} {e : Nat} :
    pass.finds e = true
      ↔
    pass.stoppedAt = none ∧
      ∃ degrees, pass.state.netDegrees[e]? = some degrees ∧ 1 < degrees.spanned := by
  unfold finds
  rw [Bool.and_eq_true, Option.isNone_iff_eq_none, Option.any_eq_true]
  simp only [decide_eq_true_eq]

end Pass

namespace CostModel

variable [Scalar α] (model : CostModel α) (graph : Hypergraph α)

def checkPass (limits : RefineLimits) (bounds : Balance α) (state : PartitionState α) :
    Except (Failure α) Unit := do
  model.checkBounds graph bounds
  if limits.checkConsistency then
    state.checkConsistency model graph
  else
    state.checkShape model graph

def passBefore (maxMoves : Nat) (bounds : Balance α) (state : PartitionState α) (k : Nat) :
    Except Fault (Pass α) :=
  model.visit graph maxMoves bounds (List.range k) (.start state)

def turn (maxMoves : Nat) (bounds : Balance α) (pass : Pass α) (e : Nat) :
    Except Fault (Pass α) :=
  if pass.stoppedAt.isSome then .ok pass else model.visit graph maxMoves bounds [e] pass

def freeTurn (bounds : Balance α) (pass : Pass α) (e : Nat) : Except Fault (Pass α) := do
  if (← pass.state.netDegrees[e]?).spanned ≤ 1 then
    return pass
  else
    model.improve graph bounds pass e

def sweepBefore (bounds : Balance α) (state : PartitionState α) (k : Nat) :
    Except Fault (Pass α) :=
  (List.range k).foldlM (model.freeTurn graph bounds) (.start state)

variable {model graph} {limits : RefineLimits} {maxMoves : Nat} {bounds : Balance α}
  {state : PartitionState α} {pass next : Pass α} {e k : Nat}

theorem hasShape_of_checkPass (h : model.checkPass graph limits bounds state = .ok ()) :
    bounds.HasShape model.numParts graph.dimensions.vertex := by
  unfold checkPass at h
  rw [check_bind_eq_ok, Failure.liftM_precondition_eq_ok, checkBounds_eq_ok] at h
  exact h.left

theorem shaped_of_checkPass (h : model.checkPass graph limits bounds state = .ok ()) :
    state.Shaped model graph := by
  unfold checkPass at h
  rw [check_bind_eq_ok] at h
  replace h := h.right
  split at h
  . unfold PartitionState.checkConsistency at h
    rw [check_bind_eq_ok, PartitionState.checkShape_eq_ok] at h
    exact h.left
  . exact PartitionState.checkShape_eq_ok.mp h

variable (model graph limits bounds state) in
theorem pass_eq_passBefore :
    model.pass graph limits bounds state
      =
    (do
      model.checkPass graph limits bounds state
      model.passBefore graph limits.maxMoves bounds state graph.numHyperedges) := by
  unfold pass Counting.pass checkPass
  rw [unbounded_visit, bind_assoc]
  congr 1
  funext _
  split
  . rfl
  . rfl

theorem pass_eq_ok :
    model.pass graph limits bounds state = .ok pass
      ↔
    model.checkPass graph limits bounds state = .ok () ∧
      model.passBefore graph limits.maxMoves bounds state graph.numHyperedges = .ok pass := by
  rw [pass_eq_passBefore, check_bind_eq_ok, Failure.liftM_fault_eq_ok]

theorem improve_eq_ok :
    model.improve graph bounds pass e = .ok next
      ↔
    ∃ best gained state,
      model.bestMove? graph bounds pass.state e = some best ∧
      model.commit graph pass.state best = .ok (gained, state) ∧
      next = { pass with
        state
        visited := pass.visited + 1
        gain := pass.gain + gained
        moves := if best.target.isSome then best :: pass.moves else pass.moves } := by
  unfold improve Counting.improve
  rw [unbounded_commit]
  simp only [bind_eq_ok, Fault.liftM_eq_ok, pure_eq_ok, Except.ok.injEq, Prod.exists]
  constructor
  . rintro ⟨best, hbest, gained, state, hcommit, rfl⟩
    exact ⟨best, gained, state, hbest, hcommit, rfl⟩
  . rintro ⟨best, gained, state, hbest, hcommit, rfl⟩
    exact ⟨best, hbest, gained, state, hcommit, rfl⟩

theorem turn_eq (hrunning : pass.stoppedAt = none) :
    model.turn graph maxMoves bounds pass e
      =
    (do
      if (← pass.state.netDegrees[e]?).spanned ≤ 1 then
        return pass
      else if maxMoves ≤ pass.visited + 1 then
        return { pass with visited := pass.visited + 1, stoppedAt := some e }
      else
        model.improve graph bounds pass e) := by
  unfold turn
  rw [visit_cons, hrunning]
  simp only [Option.isSome_none, Bool.false_eq_true, ↓reduceIte]
  congr 1
  funext degrees
  split
  . rfl
  . split
    . rfl
    . exact bind_pure _

theorem turn_of_stopped (hstopped : pass.stoppedAt.isSome = true) :
    model.turn graph maxMoves bounds pass e = .ok pass := by
  unfold turn
  rw [if_pos hstopped]

theorem foldlM_turn_of_stopped (hstopped : pass.stoppedAt.isSome = true) (es : List Nat) :
    es.foldlM (model.turn graph maxMoves bounds) pass = .ok pass := by
  induction es with
  | nil => rfl
  | cons e es ih => rw [List.foldlM_cons, turn_of_stopped hstopped, ok_bind, ih]

theorem visit_eq_foldlM (hrunning : pass.stoppedAt = none) (es : List Nat) :
    model.visit graph maxMoves bounds es pass
      =
    es.foldlM (model.turn graph maxMoves bounds) pass := by
  induction es generalizing pass with
  | nil => rfl
  | cons e es ih =>
    rw [List.foldlM_cons, turn_eq hrunning, bind_assoc]
    rw [visit_cons]
    congr 1
    funext degrees
    split
    . exact ih hrunning
    . split
      . exact (foldlM_turn_of_stopped rfl es).symm
      . cases himprove : model.improve graph bounds pass e with
        | error fault => rfl
        | ok next =>
          obtain ⟨_, _, _, _, _, rfl⟩ := improve_eq_ok.mp himprove
          rw [ok_bind, ok_bind]
          exact ih hrunning

theorem passBefore_succ (k : Nat) :
    model.passBefore graph maxMoves bounds state (k + 1)
      =
    (model.passBefore graph maxMoves bounds state k >>= fun pass =>
      model.turn graph maxMoves bounds pass k) := by
  unfold passBefore
  rw [visit_eq_foldlM rfl, visit_eq_foldlM rfl, List.range_succ, List.foldlM_append]
  congr 1
  funext pass
  exact bind_pure _

theorem sweepBefore_succ (k : Nat) :
    model.sweepBefore graph bounds state (k + 1)
      =
    (model.sweepBefore graph bounds state k >>= fun pass =>
      model.freeTurn graph bounds pass k) := by
  unfold sweepBefore
  rw [List.range_succ, List.foldlM_append]
  congr 1
  funext pass
  exact bind_pure _

theorem turn_eq_freeTurn (hrunning : pass.stoppedAt = none)
    (hbudget : pass.finds e = true → pass.visited + 1 < maxMoves) :
    model.turn graph maxMoves bounds pass e = model.freeTurn graph bounds pass e := by
  rw [turn_eq hrunning]
  unfold freeTurn
  cases hdegrees : pass.state.netDegrees[e]? with
  | none => rfl
  | some degrees =>
    rw [Fault.liftM_some, ok_bind, ok_bind]
    split
    . rfl
    . next hspanned =>
      have := hbudget (Pass.finds_iff.mpr ⟨hrunning, degrees, hdegrees, by omega⟩)
      rw [if_neg (by omega)]

theorem turn_of_tries (htries : pass.tries maxMoves e = true) :
    model.turn graph maxMoves bounds pass e = model.improve graph bounds pass e := by
  unfold Pass.tries at htries
  rw [Bool.and_eq_true, decide_eq_true_eq, Pass.finds_iff] at htries
  obtain ⟨⟨hrunning, degrees, hdegrees, hspanned⟩, hbudget⟩ := htries
  rw [turn_eq hrunning, hdegrees, Fault.liftM_some, ok_bind, if_neg (by omega), if_neg (by omega)]

theorem turn_of_finds (hfinds : pass.finds e = true) (hbudget : maxMoves ≤ pass.visited + 1) :
    model.turn graph maxMoves bounds pass e
      =
    .ok { pass with visited := pass.visited + 1, stoppedAt := some e } := by
  obtain ⟨hrunning, degrees, hdegrees, hspanned⟩ := Pass.finds_iff.mp hfinds
  rw [turn_eq hrunning, hdegrees, Fault.liftM_some, ok_bind, if_neg (by omega), if_pos hbudget]
  rfl

theorem freeTurn_cases (hrunning : pass.stoppedAt = none)
    (h : model.freeTurn graph bounds pass e = .ok next) :
    pass.finds e = false ∧ next = pass
      ∨
    pass.finds e = true ∧ model.improve graph bounds pass e = .ok next := by
  unfold freeTurn at h
  rw [bind_eq_ok] at h
  obtain ⟨degrees, hdegrees, h⟩ := h
  rw [Fault.liftM_eq_ok] at hdegrees
  split at h
  . next hspanned =>
    refine .inl ⟨?_, (Except.ok.inj h).symm⟩
    rw [← Bool.not_eq_true, Pass.finds_iff]
    rintro ⟨_, other, hother, hlt⟩
    rw [hdegrees, Option.some.injEq] at hother
    subst hother
    omega
  . next hspanned =>
    exact .inr ⟨Pass.finds_iff.mpr ⟨hrunning, degrees, hdegrees, by omega⟩, h⟩

end CostModel

theorem Ready.of_checkPass [Scalar α] {model : CostModel α} {graph : Hypergraph α}
    {limits : RefineLimits} {bounds : Balance α} {state : PartitionState α}
    (hg : graph.WellFormed) (h : model.checkPass graph limits bounds state = .ok ()) :
    Ready model graph limits bounds state := by
  refine ⟨CostModel.hasShape_of_checkPass h, CostModel.shaped_of_checkPass h, ?_⟩
  intro hcheck
  unfold CostModel.checkPass at h
  rw [check_bind_eq_ok, if_pos hcheck] at h
  exact PartitionState.agrees_of_checkConsistency hg h.right

end CircuitPartition
