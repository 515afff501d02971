import CircuitPartition.Proofs.Refine.Accounting
import CircuitPartition.Proofs.Refine.Safety
import CircuitPartition.Proofs.Refine.Visit

/-!
Which block a hyperedge is pulled into. Gains that are close to each other count as equal, which is
not transitive; what the scan of the blocks comes to is still the best gain up to the tolerance, and
of equal gains the one into the first block.
-/

namespace CircuitPartition

variable {α : Type}

namespace CostModel

section Offers

variable [Scalar α] (model : CostModel α) (graph : Hypergraph α) (bounds : Balance α)
  (state : PartitionState α) (e : Nat)

structure Offers (target : Nat) (move : Gain α) : Prop where
  legal : isLegal? graph bounds state e target = some true
  priced : model.gain? graph state e target = some move

variable {model graph bounds state e} {target : Nat} {move best next : Gain α}

theorem gain?_eq_some (h : model.gain? graph state e target = some move) :
    move.target = some target ∧ model.pinNormSum? graph e = some move.weightSum := by
  unfold gain? at h
  simp only [Option.bind_eq_bind, Option.bind_eq_some_iff, Option.pure_def, Option.some.injEq] at h
  obtain ⟨_, _, _, _, _, _, _, _, _, _, _, _, weightSum, hweight, rfl⟩ := h
  exact ⟨rfl, hweight⟩

theorem commit_cases_of_target {gained : α} {final : PartitionState α}
    (h : model.commit graph state move = .ok (gained, final)) :
    move.target = none ∧ gained = 0 ∧ final = state
      ∨
    move.target.isSome = true ∧ gained = move.gain := by
  unfold commit Counting.commit at h
  rw [PartitionState.unbounded_move] at h
  cases htarget : move.target with
  | none =>
    rw [htarget] at h
    dsimp only at h
    rw [pure_eq_ok, Except.ok.injEq, Prod.mk.injEq] at h
    exact .inl ⟨rfl, h.left.symm, h.right.symm⟩
  | some target =>
    rw [htarget] at h
    simp only [bind_eq_ok, pure_eq_ok, Except.ok.injEq, Prod.mk.injEq] at h
    obtain ⟨_, _, _, _, _, _, _, _, hgained, _⟩ := h
    exact .inr ⟨rfl, hgained.symm⟩

theorem lt_of_isLegal? {legal : Bool} (h : isLegal? graph bounds state e target = some legal) :
    target < bounds.size := by
  unfold isLegal? at h
  simp only [Option.bind_eq_bind, Option.bind_eq_some_iff, Option.pure_def, Option.some.injEq] at h
  obtain ⟨_, _, _, _, _, _, bound, hbound, _⟩ := h
  exact (Array.getElem?_eq_some_iff.mp hbound).1

theorem considerTarget?_eq_some
    (h : model.considerTarget? graph bounds state e best target = some next) :
    model.Offers graph bounds state e target next ∧ next.isBetter best = true
      ∨
    next = best ∧ ∀ move, model.Offers graph bounds state e target move →
      ¬move.isBetter best = true := by
  unfold considerTarget? at h
  rw [Option.bind_eq_bind, Option.bind_eq_some_iff] at h
  obtain ⟨legal, hlegal, h⟩ := h
  cases legal with
  | false =>
    refine .inr ⟨(Option.some.inj h).symm, ?_⟩
    intro move hoffers
    have := hoffers.legal
    simp [hlegal] at this
  | true =>
    simp only [Bool.not_true, Bool.false_eq_true, ↓reduceIte, Option.bind_eq_bind,
      Option.bind_eq_some_iff, Option.pure_def, Option.some.injEq] at h
    obtain ⟨candidate, hpriced, h⟩ := h
    split at h
    . next hbetter =>
      subst h
      exact .inl ⟨⟨hlegal, hpriced⟩, hbetter⟩
    . next hbetter =>
      refine .inr ⟨h.symm, ?_⟩
      intro move hoffers
      have hsame := hoffers.priced
      rw [hpriced, Option.some.injEq] at hsame
      rw [← hsame]
      exact hbetter

end Offers

variable [ExactScalar α] (model : CostModel α) (graph : Hypergraph α) (bounds : Balance α)
  (state : PartitionState α) (e : Nat)

structure Scanned (n : Nat) (best : Gain α) : Prop where
  weightSum : model.pinNormSum? graph e = some best.weightSum
  nonneg : 0 ≤ best.gain
  near : ∀ target < n, ∀ move, model.Offers graph bounds state e target move →
    move.gain ≤ best.gain + Gain.tolerance
  best : best = .baseline e best.weightSum
    ∨
  ∃ block < n, model.Offers graph bounds state e block best ∧ Gain.tolerance < best.gain ∧
    ∀ target < block, ∀ move, model.Offers graph bounds state e target move →
      move.gain < best.gain

/-- What the best move is, staying put included, among all that are legal. -/
structure Chooses (best : Gain α) : Prop where
  stays : best.target = none
    ↔
  ∀ target move, model.Offers graph bounds state e target move → move.gain ≤ Gain.tolerance
  offered : ∀ block, best.target = some block → model.Offers graph bounds state e block best
  gains : best.target.isSome = true → Gain.tolerance < best.gain
  near : best.target.isSome = true →
    ∀ target move, model.Offers graph bounds state e target move →
      move.gain - Gain.tolerance ≤ best.gain
  first : ∀ block, best.target = some block →
    ∀ target < block, ∀ move, model.Offers graph bounds state e target move →
      move.gain < best.gain
  lowest : ∀ block, best.target = some block →
    ∀ target move, model.Offers graph bounds state e target move → move.gain = best.gain →
      block ≤ target

variable {model graph bounds state e} {n : Nat} {best next : Gain α}

namespace Scanned

theorem baseline {weightSum : α} (h : model.pinNormSum? graph e = some weightSum) :
    model.Scanned graph bounds state e 0 (.baseline e weightSum) where
  weightSum := h
  nonneg := le_refl 0
  near := by
    intro target htarget
    omega
  best := .inl rfl

theorem isBetter_iff (h : model.Scanned graph bounds state e n best) {target : Nat}
    {move : Gain α} (hoffers : model.Offers graph bounds state e target move) :
    move.isBetter best = true ↔ best.gain + Gain.tolerance < move.gain := by
  apply Gain.isBetter_iff
  have hweight := (gain?_eq_some hoffers.priced).right
  rw [h.weightSum, Option.some.injEq] at hweight
  exact hweight.symm

theorem replace (h : model.Scanned graph bounds state e n best)
    (hoffers : model.Offers graph bounds state e n next) (hbetter : next.isBetter best = true) :
    model.Scanned graph bounds state e (n + 1) next := by
  -- A move that is better than the best so far exceeds every gain that came near that one.
  have htolerance : (0 : α) < Gain.tolerance := Gain.tolerance_pos
  have hnonneg := h.nonneg
  rw [h.isBetter_iff hoffers] at hbetter
  have hless : ∀ target < n, ∀ move, model.Offers graph bounds state e target move →
      move.gain < next.gain := by
    intro target htarget move hmove
    exact lt_of_le_of_lt (h.near target htarget move hmove) hbetter
  constructor
  . exact (gain?_eq_some hoffers.priced).right
  . linarith
  . intro target htarget move hmove
    cases Nat.lt_succ_iff_lt_or_eq.mp htarget with
    | inl hlt =>
      have := hless target hlt move hmove
      linarith
    | inr heq =>
      subst heq
      have hsame := hmove.priced
      rw [hoffers.priced, Option.some.injEq] at hsame
      rw [hsame]
      linarith
  . exact .inr ⟨n, Nat.lt_succ_self n, hoffers, by linarith, hless⟩

theorem keep (h : model.Scanned graph bounds state e n best)
    (hworse : ∀ move, model.Offers graph bounds state e n move → ¬move.isBetter best = true) :
    model.Scanned graph bounds state e (n + 1) best := by
  constructor
  . exact h.weightSum
  . exact h.nonneg
  . intro target htarget move hmove
    cases Nat.lt_succ_iff_lt_or_eq.mp htarget with
    | inl hlt => exact h.near target hlt move hmove
    | inr heq =>
      subst heq
      have := hworse move hmove
      rw [h.isBetter_iff hmove, not_lt] at this
      exact this
  . cases h.best with
    | inl hbest => exact .inl hbest
    | inr hchosen =>
      obtain ⟨block, hblock, hchosen⟩ := hchosen
      exact .inr ⟨block, Nat.lt_succ_of_lt hblock, hchosen⟩

theorem foldlM_considerTarget? {weightSum : α}
    (hweight : model.pinNormSum? graph e = some weightSum) :
    ∀ {n : Nat} {best : Gain α},
      (List.range n).foldlM (model.considerTarget? graph bounds state e) (.baseline e weightSum)
        = some best →
      model.Scanned graph bounds state e n best := by
  intro n
  induction n with
  | zero =>
    intro best h
    rw [List.range_zero, List.foldlM_nil, Option.pure_def, Option.some.injEq] at h
    rw [← h]
    exact baseline hweight
  | succ n ih =>
    intro best h
    rw [List.range_succ, List.foldlM_append, Option.bind_eq_bind, Option.bind_eq_some_iff] at h
    obtain ⟨before, hbefore, h⟩ := h
    rw [List.foldlM_cons, Option.bind_eq_bind, Option.bind_eq_some_iff] at h
    obtain ⟨_, hstep, h⟩ := h
    rw [List.foldlM_nil, Option.pure_def, Option.some.injEq] at h
    subst h
    cases considerTarget?_eq_some hstep with
    | inl hreplaced => exact (ih hbefore).replace hreplaced.left hreplaced.right
    | inr hkept =>
      rw [hkept.left]
      exact (ih hbefore).keep hkept.right

theorem of_bestMove? (h : model.bestMove? graph bounds state e = some best) :
    model.Scanned graph bounds state e model.numParts best := by
  unfold bestMove? at h
  rw [Option.bind_eq_bind, Option.bind_eq_some_iff] at h
  obtain ⟨weightSum, hweight, h⟩ := h
  exact foldlM_considerTarget? hweight h

variable (h : model.Scanned graph bounds state e model.numParts best)
  (hb : bounds.HasShape model.numParts graph.dimensions.vertex)

include h hb

theorem le_of_offers {target : Nat} {move : Gain α}
    (hoffers : model.Offers graph bounds state e target move) :
    move.gain ≤ best.gain + Gain.tolerance := by
  apply h.near target _ move hoffers
  rw [← hb.size_eq]
  exact lt_of_isLegal? hoffers.legal

theorem chooses : model.Chooses graph bounds state e best := by
  cases h.best with
  | inl hbest =>
    have hstays : best.target = none := by
      rw [hbest]
      rfl
    have hgain : best.gain = 0 := by
      rw [hbest]
      rfl
    constructor
    . refine ⟨?_, fun _ => hstays⟩
      intro _ target move hoffers
      have := h.le_of_offers hb hoffers
      rwa [hgain, zero_add] at this
    all_goals simp [hstays]
  | inr hchosen =>
    obtain ⟨block, _, hoffers, hgain, hfirst⟩ := hchosen
    have htarget := (gain?_eq_some hoffers.priced).left
    constructor
    . constructor
      . intro hstays
        simp [htarget] at hstays
      -- The move that has been chosen is among those that would gain too little.
      . intro hall
        exact absurd hgain (not_lt.mpr (hall block best hoffers))
    . intro b hb
      rw [htarget, Option.some.injEq] at hb
      rw [← hb]
      exact hoffers
    . intro _
      exact hgain
    . intro _ target move hmove
      have := h.le_of_offers hb hmove
      linarith
    . intro b hb
      rw [htarget, Option.some.injEq] at hb
      rw [← hb]
      exact hfirst
    . intro b hb target move hmove heq
      rw [htarget, Option.some.injEq] at hb
      rw [← hb]
      by_contra hlt
      exact absurd heq (ne_of_lt (hfirst target (by omega) move hmove))

end Scanned

theorem improve_cases {pass next : Pass α}
    (hb : bounds.HasShape model.numParts graph.dimensions.vertex)
    (h : model.improve graph bounds pass e = .ok next) :
    pass.gain + Gain.tolerance < next.gain
      ∨
    next = { pass with visited := pass.visited + 1 } ∧
      ∀ target move, model.Offers graph bounds pass.state e target move →
        move.gain ≤ Gain.tolerance := by
  obtain ⟨best, gained, state, hbest, hcommit, rfl⟩ := improve_eq_ok.mp h
  have hchooses := (Scanned.of_bestMove? hbest).chooses hb
  cases commit_cases_of_target hcommit with
  | inl hstays =>
    obtain ⟨htarget, rfl, rfl⟩ := hstays
    exact .inr ⟨by simp [htarget], hchooses.stays.mp htarget⟩
  | inr hmoves =>
    obtain ⟨htarget, rfl⟩ := hmoves
    apply Or.inl
    have := hchooses.gains htarget
    dsimp only
    linarith

theorem gain_le_of_improve {pass next : Pass α}
    (hb : bounds.HasShape model.numParts graph.dimensions.vertex)
    (h : model.improve graph bounds pass e = .ok next) : pass.gain ≤ next.gain := by
  have htolerance : (0 : α) < Gain.tolerance := Gain.tolerance_pos
  cases improve_cases hb h with
  | inl hgain => linarith
  | inr hstays => rw [hstays.left]

end CostModel

variable [ExactScalar α] {model : CostModel α} {graph : Hypergraph α} {bounds : Balance α}
  {limits : RefineLimits} {state : PartitionState α}

end CircuitPartition
