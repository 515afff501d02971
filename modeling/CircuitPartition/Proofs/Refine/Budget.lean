import CircuitPartition.Proofs.Refine.Choice

/-!
The budget of moves. A pass does what it would do without one, hyperedge by hyperedge, until it has
found as many cut hyperedges as the budget says; a larger budget only lets it go on.
-/

namespace CircuitPartition

theorem filter_range_countP_lt (p : Nat → Bool) (m n : Nat) :
    (List.range n).filter (fun k => p k && decide ((List.range k).countP p < m))
      =
    ((List.range n).filter p).take m := by
  induction n with
  | zero => simp
  | succ n ih =>
    rw [List.range_succ, List.filter_append, List.filter_append, ih, List.take_append,
      ← List.countP_eq_length_filter]
    congr 1
    cases hp : p n with
    | false => simp [hp]
    | true =>
      by_cases hlt : (List.range n).countP p < m
      . obtain ⟨d, hd⟩ : ∃ d, m - (List.range n).countP p = d + 1 :=
          ⟨m - (List.range n).countP p - 1, by omega⟩
        simp [hp, hlt, hd]
      . have hzero : m - (List.range n).countP p = 0 := by omega
        simp [hp, hlt, hzero]

variable {α : Type}

namespace CostModel

section Rounded

variable [Scalar α] (model : CostModel α) (graph : Hypergraph α) (bounds : Balance α)
  (state : PartitionState α)

def found (maxMoves : Nat) : List Nat :=
  (List.range graph.numHyperedges).filter fun k =>
    (model.passBefore graph maxMoves bounds state k).toOption.any (·.finds k)

def tried (maxMoves : Nat) : List Nat :=
  (List.range graph.numHyperedges).filter fun k =>
    (model.passBefore graph maxMoves bounds state k).toOption.any (·.tries maxMoves k)

def sweepFinds (k : Nat) : Bool :=
  (model.sweepBefore graph bounds state k).toOption.any (·.finds k)

def sweepCount (k : Nat) : Nat :=
  (List.range k).countP (model.sweepFinds graph bounds state)

/--
A pass that may make `fewer` moves does what one that may make `more` does until just before
hyperedge `k`, where it stops, having tried one cut hyperedge less than its budget, or to the end.
-/
structure Truncates (limits : RefineLimits) (fewer more k : Nat) : Prop where
  le : k ≤ graph.numHyperedges
  agree : ∀ j ≤ k,
    model.passBefore graph fewer bounds state j = model.passBefore graph more bounds state j
  ends :
    k = graph.numHyperedges ∧
      model.pass graph { limits with maxMoves := fewer } bounds state
        =
      model.pass graph { limits with maxMoves := more } bounds state
    ∨
    ∃ pass, model.passBefore graph more bounds state k = .ok pass ∧ pass.finds k = true ∧
      pass.visited + 1 = max fewer 1 ∧
      model.pass graph { limits with maxMoves := fewer } bounds state
        =
      .ok { pass with visited := pass.visited + 1, stoppedAt := some k }
  tried : model.tried graph bounds state fewer
    = (model.found graph bounds state more).take (max fewer 1 - 1)

variable {model graph bounds state} {maxMoves j k : Nat} {pass : Pass α}

variable (model graph bounds state) in
theorem sweepCount_succ (k : Nat) :
    model.sweepCount graph bounds state (k + 1)
      =
    model.sweepCount graph bounds state k
      + if model.sweepFinds graph bounds state k then 1 else 0 := by
  unfold sweepCount
  rw [List.range_succ, List.countP_append, List.countP_singleton]

variable (model graph bounds state) in
theorem sweepCount_le (k : Nat) : model.sweepCount graph bounds state k ≤ k := by
  unfold sweepCount
  apply le_trans List.countP_le_length
  rw [List.length_range]

theorem sweepCount_mono (h : j ≤ k) :
    model.sweepCount graph bounds state j ≤ model.sweepCount graph bounds state k := by
  induction k, h using Nat.le_induction with
  | base => exact le_refl _
  | succ k _ ih =>
    rw [sweepCount_succ]
    omega

theorem sweepFinds_eq (h : model.sweepBefore graph bounds state k = .ok pass) :
    model.sweepFinds graph bounds state k = pass.finds k := by
  unfold sweepFinds
  rw [h]
  rfl

theorem counted_sweepBefore (h : model.sweepBefore graph bounds state k = .ok pass) :
    pass.stoppedAt = none ∧ pass.visited = model.sweepCount graph bounds state k ∧
      pass.moves.length ≤ pass.visited := by
  induction k generalizing pass with
  | zero =>
    cases h
    exact ⟨rfl, rfl, le_refl 0⟩
  | succ k ih =>
    rw [sweepBefore_succ, bind_eq_ok] at h
    obtain ⟨before, hbefore, h⟩ := h
    obtain ⟨hrunning, hvisited, hmoves⟩ := ih hbefore
    rw [sweepCount_succ, sweepFinds_eq hbefore]
    cases freeTurn_cases hrunning h with
    | inl hskipped =>
      obtain ⟨hfinds, rfl⟩ := hskipped
      simp only [hfinds, Bool.false_eq_true, ↓reduceIte, Nat.add_zero]
      exact ⟨hrunning, hvisited, hmoves⟩
    | inr htried =>
      obtain ⟨hfinds, himprove⟩ := htried
      obtain ⟨best, _, _, _, _, rfl⟩ := improve_eq_ok.mp himprove
      simp only [hfinds, ↓reduceIte]
      refine ⟨hrunning, by omega, ?_⟩
      split
      . simpa using hmoves
      . omega

theorem passBefore_eq_sweepBefore (h : model.sweepCount graph bounds state k < max maxMoves 1) :
    model.passBefore graph maxMoves bounds state k = model.sweepBefore graph bounds state k := by
  induction k with
  | zero => rfl
  | succ k ih =>
    rw [sweepCount_succ] at h
    rw [passBefore_succ, sweepBefore_succ, ih (by omega)]
    cases hsweep : model.sweepBefore graph bounds state k with
    | error fault => rfl
    | ok pass =>
      obtain ⟨hrunning, hvisited, _⟩ := counted_sweepBefore hsweep
      rw [sweepFinds_eq hsweep] at h
      rw [ok_bind, ok_bind, turn_eq_freeTurn hrunning]
      intro hfinds
      rw [if_pos hfinds] at h
      omega

theorem passBefore_of_le_sweepCount
    (h : max maxMoves 1 ≤ model.sweepCount graph bounds state k) :
    ∃ j < k, ∃ pass, model.sweepBefore graph bounds state j = .ok pass ∧ pass.finds j = true ∧
      pass.visited + 1 = max maxMoves 1 ∧
      model.passBefore graph maxMoves bounds state k
        =
      .ok { pass with visited := pass.visited + 1, stoppedAt := some j } := by
  induction k with
  | zero =>
    have := model.sweepCount_le graph bounds state 0
    omega
  | succ k ih =>
    cases Nat.lt_or_ge (model.sweepCount graph bounds state k) (max maxMoves 1) with
    | inr hle =>
      obtain ⟨j, hj, pass, hsweep, hfinds, hvisited, hstopped⟩ := ih hle
      refine ⟨j, by omega, pass, hsweep, hfinds, hvisited, ?_⟩
      rw [passBefore_succ, hstopped, ok_bind, turn_of_stopped rfl]
    | inl hlt =>
      have hsame := passBefore_eq_sweepBefore hlt
      rw [sweepCount_succ] at h
      -- It is this hyperedge that uses it up, so the pass has come as far and finds it cut.
      have hsweepFinds : model.sweepFinds graph bounds state k = true := by
        by_contra hnot
        rw [if_neg hnot] at h
        omega
      rw [if_pos hsweepFinds] at h
      cases hsweep : model.sweepBefore graph bounds state k with
      | error fault => simp [sweepFinds, hsweep, Except.toOption] at hsweepFinds
      | ok pass =>
        obtain ⟨_, hvisited, _⟩ := counted_sweepBefore hsweep
        rw [sweepFinds_eq hsweep] at hsweepFinds
        refine ⟨k, Nat.lt_succ_self k, pass, hsweep, hsweepFinds, by omega, ?_⟩
        rw [passBefore_succ, hsame, hsweep, ok_bind, turn_of_finds hsweepFinds (by omega)]

theorem passBefore_cases (model : CostModel α) (graph : Hypergraph α) (bounds : Balance α)
    (state : PartitionState α) (maxMoves n : Nat) :
    model.sweepCount graph bounds state n < max maxMoves 1 ∧
      model.passBefore graph maxMoves bounds state n = model.sweepBefore graph bounds state n
    ∨
    ∃ k < n, ∃ pass, model.sweepBefore graph bounds state k = .ok pass ∧ pass.finds k = true ∧
      model.sweepCount graph bounds state k + 1 = max maxMoves 1 ∧
      pass.visited + 1 = max maxMoves 1 ∧
      model.passBefore graph maxMoves bounds state n
        =
      .ok { pass with visited := pass.visited + 1, stoppedAt := some k } := by
  -- Either with the budget left, or at the hyperedge that uses it up.
  cases Nat.lt_or_ge (model.sweepCount graph bounds state n) (max maxMoves 1) with
  | inl hlt => exact .inl ⟨hlt, passBefore_eq_sweepBefore hlt⟩
  | inr hle =>
    obtain ⟨k, hk, pass, hsweep, hfinds, hvisited, hstopped⟩ := passBefore_of_le_sweepCount hle
    obtain ⟨_, hcount, _⟩ := counted_sweepBefore hsweep
    exact .inr ⟨k, hk, pass, hsweep, hfinds, by omega, hvisited, hstopped⟩

theorem any_passBefore {p : Pass α → Bool}
    (hp : ∀ pass : Pass α, pass.stoppedAt.isSome = true → p pass = false) (k : Nat) :
    (model.passBefore graph maxMoves bounds state k).toOption.any p
      =
    ((model.sweepBefore graph bounds state k).toOption.any p &&
      decide (model.sweepCount graph bounds state k < max maxMoves 1)) := by
  cases Nat.lt_or_ge (model.sweepCount graph bounds state k) (max maxMoves 1) with
  | inl hlt => rw [passBefore_eq_sweepBefore hlt, decide_eq_true hlt, Bool.and_true]
  | inr hle =>
    obtain ⟨_, _, _, _, _, _, hstopped⟩ := passBefore_of_le_sweepCount hle
    rw [hstopped, decide_eq_false (by omega), Bool.and_false]
    exact hp _ rfl

theorem any_finds_passBefore (k : Nat) :
    (model.passBefore graph maxMoves bounds state k).toOption.any (·.finds k)
      =
    (model.sweepFinds graph bounds state k &&
      decide (model.sweepCount graph bounds state k < max maxMoves 1)) := by
  apply any_passBefore
  intro pass hstopped
  simp [Pass.finds, Option.isNone_eq_false_iff.mpr hstopped]

theorem any_tries_passBefore (k : Nat) :
    (model.passBefore graph maxMoves bounds state k).toOption.any (·.tries maxMoves k)
      =
    (model.sweepFinds graph bounds state k &&
      decide (model.sweepCount graph bounds state k < max maxMoves 1 - 1)) := by
  have hsweep : (model.sweepBefore graph bounds state k).toOption.any (·.tries maxMoves k)
      = (model.sweepFinds graph bounds state k &&
        decide (model.sweepCount graph bounds state k + 1 < maxMoves)) := by
    cases hbefore : model.sweepBefore graph bounds state k with
    | error fault => simp [sweepFinds, hbefore, Except.toOption]
    | ok pass =>
      rw [sweepFinds_eq hbefore, ← (counted_sweepBefore hbefore).right.left]
      rfl
  rw [any_passBefore, hsweep, Bool.and_assoc, ← Bool.decide_and]
  . congr 2
    rw [eq_iff_iff]
    omega
  . intro pass hstopped
    simp [Pass.tries, Pass.finds, Option.isNone_eq_false_iff.mpr hstopped]

variable (model graph bounds state) in
theorem tried_eq_take {fewer more : Nat} (h : fewer ≤ more) :
    model.tried graph bounds state fewer
      =
    (model.found graph bounds state more).take (max fewer 1 - 1) := by
  have htried : model.tried graph bounds state fewer
      = ((List.range graph.numHyperedges).filter (model.sweepFinds graph bounds state)).take
        (max fewer 1 - 1) := by
    unfold tried
    simp only [any_tries_passBefore]
    exact filter_range_countP_lt _ _ _
  have hfound : model.found graph bounds state more
      = ((List.range graph.numHyperedges).filter (model.sweepFinds graph bounds state)).take
        (max more 1) := by
    unfold found
    simp only [any_finds_passBefore]
    exact filter_range_countP_lt _ _ _
  rw [htried, hfound, List.take_take]
  congr 1
  omega

variable {limits : RefineLimits} (hcheck : model.checkPass graph limits bounds state = .ok ())

include hcheck

theorem pass_withMoves (maxMoves : Nat) :
    model.pass graph { limits with maxMoves } bounds state
      =
    liftM (model.passBefore graph maxMoves bounds state graph.numHyperedges) := by
  have hsame : model.checkPass graph { limits with maxMoves } bounds state = .ok () := hcheck
  rw [pass_eq_passBefore, hsame, ok_bind]

theorem truncates {fewer more : Nat} (hle : fewer ≤ more) :
    ∃ k, model.Truncates graph bounds state limits fewer more k := by
  have hagree {k : Nat} (hk : model.sweepCount graph bounds state k < max fewer 1) :
      ∀ j ≤ k,
        model.passBefore graph fewer bounds state j = model.passBefore graph more bounds state j := by
    intro j hj
    have hcount : model.sweepCount graph bounds state j ≤ model.sweepCount graph bounds state k :=
      sweepCount_mono hj
    rw [passBefore_eq_sweepBefore (by omega), passBefore_eq_sweepBefore (by omega)]
  cases passBefore_cases model graph bounds state fewer graph.numHyperedges with
  | inl hleft =>
    refine ⟨graph.numHyperedges, le_refl _, hagree hleft.left, .inl ⟨rfl, ?_⟩,
      tried_eq_take model graph bounds state hle⟩
    rw [pass_withMoves hcheck, pass_withMoves hcheck, hagree hleft.left _ (le_refl _)]
  | inr hstops =>
    obtain ⟨k, hk, pass, hsweep, hfinds, hcount, hvisited, hstopped⟩ := hstops
    refine ⟨k, by omega, hagree (by omega), .inr ⟨pass, ?_, hfinds, hvisited, ?_⟩,
      tried_eq_take model graph bounds state hle⟩
    . rw [passBefore_eq_sweepBefore (by omega), hsweep]
    . rw [pass_withMoves hcheck, hstopped]
      rfl

omit hcheck in
theorem length_moves_le (h : model.passBefore graph maxMoves bounds state k = .ok pass) :
    pass.moves.length ≤ max maxMoves 1 - 1 := by
  cases passBefore_cases model graph bounds state maxMoves k with
  | inl hleft =>
    rw [hleft.right] at h
    obtain ⟨_, hvisited, hmoves⟩ := counted_sweepBefore h
    omega
  | inr hstops =>
    obtain ⟨_, _, before, hsweep, _, _, hvisited, hstopped⟩ := hstops
    obtain ⟨_, _, hmoves⟩ := counted_sweepBefore hsweep
    rw [hstopped, Except.ok.injEq] at h
    rw [← h]
    dsimp only
    omega

omit hcheck in
variable (model graph bounds) in
theorem sweepBefore_of_sweepCount_eq_zero (hk : k ≤ state.netDegrees.size)
    (h : model.sweepCount graph bounds state k = 0) :
    model.sweepBefore graph bounds state k = .ok (.start state) := by
  induction k with
  | zero => rfl
  | succ k ih =>
    rw [sweepCount_succ] at h
    have hsweep := ih (by omega) (by omega)
    have hfinds : ¬(Pass.start state).finds k = true := by
      intro hfinds
      rw [sweepFinds_eq hsweep, if_pos hfinds] at h
      omega
    have hspanned : state.netDegrees[k].spanned ≤ 1 := by
      by_contra hlt
      apply hfinds
      rw [Pass.finds_iff]
      exact ⟨rfl, _, Array.getElem?_eq_getElem hk, by omega⟩
    rw [sweepBefore_succ, hsweep, ok_bind]
    unfold freeTurn Pass.start
    dsimp only
    rw [Array.getElem?_eq_getElem hk, Fault.liftM_some, ok_bind, if_pos hspanned]
    rfl

omit hcheck in
theorem passBefore_of_le_one (hk : k ≤ state.netDegrees.size) (hmoves : maxMoves ≤ 1) :
    ∃ pass, model.passBefore graph maxMoves bounds state k = .ok pass ∧ pass.state = state ∧
      pass.moves = [] ∧ pass.gain = 0 := by
  cases passBefore_cases model graph bounds state maxMoves k with
  | inl hleft =>
    have hsweep := sweepBefore_of_sweepCount_eq_zero model graph bounds hk (by omega)
    exact ⟨_, hleft.right.trans hsweep, rfl, rfl, rfl⟩
  | inr hstops =>
    obtain ⟨j, hj, pass, hsweep, _, hcount, _, hstopped⟩ := hstops
    have hsize : j ≤ state.netDegrees.size := by omega
    have hstart := sweepBefore_of_sweepCount_eq_zero model graph bounds hsize (by omega)
    rw [hsweep, Except.ok.injEq] at hstart
    subst hstart
    exact ⟨_, hstopped, rfl, rfl, rfl⟩

end Rounded

section Exact

variable [ExactScalar α] {model : CostModel α} {graph : Hypergraph α} {bounds : Balance α}
  {state : PartitionState α} (hb : bounds.HasShape model.numParts graph.dimensions.vertex)

include hb

theorem gain_sweepBefore_mono {j k : Nat} (hjk : j ≤ k) {pass final : Pass α}
    (h : model.sweepBefore graph bounds state j = .ok pass)
    (hfinal : model.sweepBefore graph bounds state k = .ok final) : pass.gain ≤ final.gain := by
  induction k, hjk using Nat.le_induction generalizing final with
  | base =>
    rw [h, Except.ok.injEq] at hfinal
    rw [hfinal]
  | succ k _ ih =>
    rw [sweepBefore_succ, bind_eq_ok] at hfinal
    obtain ⟨before, hbefore, hturn⟩ := hfinal
    apply le_trans (ih hbefore)
    cases freeTurn_cases (counted_sweepBefore hbefore).left hturn with
    | inl hskipped => rw [hskipped.right]
    | inr htried => exact gain_le_of_improve hb htried.right

theorem gain_passBefore_mono {fewer more n : Nat} (hle : fewer ≤ more) {pass final : Pass α}
    (h : model.passBefore graph fewer bounds state n = .ok pass)
    (hfinal : model.passBefore graph more bounds state n = .ok final) :
    pass.gain ≤ final.gain := by
  cases passBefore_cases model graph bounds state fewer n with
  | inl hleft =>
    rw [passBefore_eq_sweepBefore (by omega)] at h hfinal
    exact gain_sweepBefore_mono hb (le_refl n) h hfinal
  | inr hstops =>
    obtain ⟨k, hk, before, hsweep, _, hcount, _, hstopped⟩ := hstops
    rw [hstopped, Except.ok.injEq] at h
    subst h
    cases passBefore_cases model graph bounds state more n with
    | inl hleft' =>
      rw [hleft'.right] at hfinal
      have hgain := gain_sweepBefore_mono hb hk.le hsweep hfinal
      exact hgain
    | inr hstops' =>
      obtain ⟨k', _, before', hsweep', hfinds', hcount', _, hstopped'⟩ := hstops'
      rw [hstopped', Except.ok.injEq] at hfinal
      subst hfinal
      -- The larger budget is not used up earlier.
      have hkk' : k ≤ k' := by
        by_contra hlt
        have hsucc := model.sweepCount_succ graph bounds state k'
        rw [sweepFinds_eq hsweep', if_pos hfinds'] at hsucc
        have hmono : model.sweepCount graph bounds state (k' + 1)
            ≤ model.sweepCount graph bounds state k := sweepCount_mono (by omega)
        omega
      have hgain := gain_sweepBefore_mono hb hkk' hsweep hsweep'
      exact hgain

end Exact

end CostModel

end CircuitPartition
