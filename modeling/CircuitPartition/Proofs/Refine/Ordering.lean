import CircuitPartition.Proofs.Refine.Choice
import Mathlib.Logic.Relation

/-!
How far "better" orders moves. It does so wherever gains that tie with a neighbour tie with each
other; gains that climb by ties, with weights that rise along, are better than one another in turn.
-/

namespace CircuitPartition

variable {α : Type} [ExactScalar α]

namespace Gain

structure Ties (a b : Gain α) : Prop where
  left : a.gain ≤ b.gain + tolerance
  right : b.gain ≤ a.gain + tolerance

structure Climbs (a b c : Gain α) : Prop where
  first : a.Ties b
  second : b.Ties c
  higher : a.gain + tolerance < c.gain
  weights : a.weightSum ≤ b.weightSum ∧ b.weightSum ≤ c.weightSum
  heavier : a.weightSum < c.weightSum

def Level (moves : List (Gain α)) : Prop :=
  ∀ a ∈ moves, ∀ b ∈ moves, ∀ c ∈ moves, ¬Climbs a b c

structure IsBest (best : Gain α) (seen : List (Gain α)) : Prop where
  mem : best ∈ seen
  best : ∀ move ∈ seen, ¬move.isBetter best = true

def scan (first : Gain α) (rest : List (Gain α)) : Gain α :=
  rest.foldl (fun best next => if next.isBetter best then next else best) first

variable {a b c first : Gain α} {moves rest : List (Gain α)}

theorem Ties.symm (h : a.Ties b) : b.Ties a :=
  ⟨h.right, h.left⟩

theorem ties_iff_abs_le : a.Ties b ↔ |a.gain - b.gain| ≤ tolerance := by
  rw [abs_le]
  constructor
  . intro h
    have hleft := h.left
    have hright := h.right
    constructor <;> linarith
  . rintro ⟨hlower, hupper⟩
    constructor <;> linarith

theorem ties_or_lt (a b : Gain α) :
    a.Ties b ∨ b.gain + tolerance < a.gain ∨ a.gain + tolerance < b.gain := by
  by_cases hleft : a.gain ≤ b.gain + tolerance
  . by_cases hright : b.gain ≤ a.gain + tolerance
    . exact .inl ⟨hleft, hright⟩
    . exact .inr (.inr (not_le.mp hright))
  . exact .inr (.inl (not_le.mp hleft))

theorem isBetter_iff_ties_or_lt :
    a.isBetter b = true
      ↔
    a.Ties b ∧ a.weightSum < b.weightSum ∨ b.gain + tolerance < a.gain := by
  have htolerance : (0 : α) < tolerance := tolerance_pos
  unfold isBetter
  dsimp only
  rw [ExactScalar.abs_eq_abs]
  split
  . next hclose =>
    have hties := ties_iff_abs_le.mpr hclose
    rw [decide_eq_true_eq]
    constructor
    . intro hlight
      exact .inl ⟨hties, hlight⟩
    . rintro (⟨_, hlight⟩ | hhigher)
      . exact hlight
      . exact absurd hties.left (not_le.mpr hhigher)
  . next hfar =>
    rw [← ties_iff_abs_le] at hfar
    rw [decide_eq_true_eq, sub_pos]
    constructor
    . intro hlt
      cases (ties_or_lt a b).resolve_left hfar with
      | inl hhigher => exact .inr hhigher
      | inr hlower => linarith
    . rintro (⟨hties, _⟩ | hhigher)
      . exact absurd hties hfar
      . linarith

theorem Ties.isBetter_iff (h : a.Ties b) :
    a.isBetter b = true ↔ a.weightSum < b.weightSum := by
  rw [isBetter_iff_ties_or_lt]
  constructor
  . rintro (⟨_, hlight⟩ | hhigher)
    . exact hlight
    . exact absurd h.left (not_le.mpr hhigher)
  . intro hlight
    exact .inl ⟨h, hlight⟩

theorem isBetter_irrefl (a : Gain α) : ¬a.isBetter a = true := by
  rw [Gain.isBetter_iff rfl, not_lt]
  exact le_add_of_nonneg_right tolerance_pos.le

theorem isBetter_asymm (h : a.isBetter b = true) : ¬b.isBetter a = true := by
  have htolerance : (0 : α) < tolerance := tolerance_pos
  rw [isBetter_iff_ties_or_lt] at h
  cases h with
  | inl h =>
    rw [h.left.symm.isBetter_iff]
    exact lt_asymm h.right
  | inr hhigher =>
    rw [isBetter_iff_ties_or_lt]
    rintro (⟨hties, _⟩ | hlower)
    . exact absurd hties.right (not_le.mpr hhigher)
    . linarith

theorem isBetter_trans_iff (hab : a.isBetter b = true) (hbc : b.isBetter c = true) :
    a.isBetter c = true ↔ ¬Climbs a b c ∧ ¬Climbs b c a ∧ ¬Climbs c a b := by
  have htolerance : (0 : α) < tolerance := tolerance_pos
  constructor
  . intro hac
    refine ⟨?_, ?_, ?_⟩
    . intro hclimbs
      have hlower := hclimbs.higher
      obtain ⟨hties, _⟩ | hhigher := isBetter_iff_ties_or_lt.mp hac
      . exact absurd hties.right (not_le.mpr hlower)
      . linarith
    . intro hclimbs
      rw [hclimbs.second.symm.isBetter_iff] at hac
      exact absurd hclimbs.weights.right (not_le.mpr hac)
    . intro hclimbs
      rw [hclimbs.first.symm.isBetter_iff] at hac
      exact absurd hclimbs.weights.left (not_le.mpr hac)
  . rintro ⟨habc, hbca, hcab⟩
    rw [isBetter_iff_ties_or_lt] at hab hbc
    obtain hac | hhigher | hlower := ties_or_lt a c
    -- Where the ends tie, one that is no lighter would close a climb to the higher of the others.
    . rw [hac.isBetter_iff]
      by_contra hheavy
      rw [not_lt] at hheavy
      obtain ⟨hties, hlight⟩ | hab := hab
      . obtain ⟨_, hlight'⟩ | hbc := hbc
        . exact absurd (hlight.trans hlight') (not_lt.mpr hheavy)
        . exact hcab ⟨hac.symm, hties, hbc, ⟨hheavy, hlight.le⟩, hheavy.trans_lt hlight⟩
      . obtain ⟨hties, hlight⟩ | hbc := hbc
        . exact hbca ⟨hties, hac.symm, hab, ⟨hlight.le, hheavy⟩, hlight.trans_le hheavy⟩
        . have := hac.left
          linarith
    . exact isBetter_iff_ties_or_lt.mpr (.inr hhigher)
    . exfalso
      obtain ⟨hties, hlight⟩ | hab := hab
      . obtain ⟨hties', hlight'⟩ | hbc := hbc
        . exact habc ⟨hties, hties', hlower, ⟨hlight.le, hlight'.le⟩, hlight.trans hlight'⟩
        . have := hties.right
          linarith
      . obtain ⟨hties, _⟩ | hbc := hbc
        . have := hties.right
          linarith
        . linarith

namespace Level

theorem mono (h : Level moves) (hsub : ∀ move ∈ rest, move ∈ moves) : Level rest := by
  intro a ha b hb c hc
  exact h a (hsub a ha) b (hsub b hb) c (hsub c hc)

theorem isBetter_trans (h : Level moves) (ha : a ∈ moves) (hb : b ∈ moves) (hc : c ∈ moves)
    (hab : a.isBetter b = true) (hbc : b.isBetter c = true) : a.isBetter c = true := by
  rw [isBetter_trans_iff hab hbc]
  exact ⟨h a ha b hb c hc, h b hb c hc a ha, h c hc a ha b hb⟩

theorem no_cycle (h : Level moves) (a : Gain α) :
    ¬Relation.TransGen (fun a b => a ∈ moves ∧ b ∈ moves ∧ a.isBetter b = true) a a := by
  have : IsTrans (Gain α) fun a b => a ∈ moves ∧ b ∈ moves ∧ a.isBetter b = true := by
    constructor
    rintro a b c ⟨ha, hb, hab⟩ ⟨_, hc, hbc⟩
    exact ⟨ha, hc, h.isBetter_trans ha hb hc hab hbc⟩
  rw [Relation.transGen_eq_self]
  rintro ⟨_, _, hbetter⟩
  exact isBetter_irrefl a hbetter

theorem isBest_step {best next : Gain α} {seen : List (Gain α)} (h : Level (seen ++ [next]))
    (hbest : IsBest best seen) :
    IsBest (if next.isBetter best then next else best) (seen ++ [next]) := by
  have hseen : ∀ move ∈ seen, move ∈ seen ++ [next] := fun _ => List.mem_append_left [next]
  have hnext : next ∈ seen ++ [next] := List.mem_append_right seen (List.mem_singleton_self next)
  split
  . next hbetter =>
    refine ⟨hnext, ?_⟩
    rw [List.forall_mem_append, List.forall_mem_singleton]
    refine ⟨?_, isBetter_irrefl next⟩
    -- What is better than the next move is better than the best one too.
    intro move hmove hover
    exact hbest.best move hmove
      (h.isBetter_trans (hseen move hmove) hnext (hseen best hbest.mem) hover hbetter)
  . next hbetter =>
    refine ⟨hseen best hbest.mem, ?_⟩
    rw [List.forall_mem_append, List.forall_mem_singleton]
    exact ⟨hbest.best, hbetter⟩

theorem isBest_scan {seen : List (Gain α)} (h : Level (seen ++ rest)) (hfirst : IsBest first seen) :
    IsBest (scan first rest) (seen ++ rest) := by
  induction rest generalizing first seen with
  | nil =>
    rw [List.append_nil]
    exact hfirst
  | cons next rest ih =>
    rw [List.append_cons] at h ⊢
    have hstep := isBest_step (h.mono fun _ => List.mem_append_left rest) hfirst
    exact ih h hstep

theorem scan_best (h : Level (first :: rest)) :
    scan first rest ∈ first :: rest ∧
      ∀ move ∈ first :: rest, ¬move.isBetter (scan first rest) = true := by
  have hfirst : IsBest first [first] := by
    refine ⟨List.mem_singleton_self first, ?_⟩
    rw [List.forall_mem_singleton]
    exact isBetter_irrefl first
  have hscan : IsBest (scan first rest) ([first] ++ rest) := isBest_scan h hfirst
  exact ⟨hscan.mem, hscan.best⟩

end Level

end Gain

namespace CostModel

variable (model : CostModel α) (graph : Hypergraph α) (state : PartitionState α) (e : Nat)

inductive IsCandidate : Gain α → Prop where
  | baseline {weightSum : α} (h : model.pinNormSum? graph e = some weightSum) :
    IsCandidate (.baseline e weightSum)
  | move {target : Nat} {move : Gain α} (h : model.gain? graph state e target = some move) :
    IsCandidate move

variable {model graph state e}

theorem IsCandidate.weightSum {move : Gain α} (h : model.IsCandidate graph state e move) :
    model.pinNormSum? graph e = some move.weightSum := by
  cases h with
  | baseline h => exact h
  | move h => exact (gain?_eq_some h).right

theorem IsCandidate.level {moves : List (Gain α)}
    (h : ∀ move ∈ moves, model.IsCandidate graph state e move) : Gain.Level moves := by
  intro a ha b _ c hc hclimbs
  have hsame : a.weightSum = c.weightSum := by
    rw [← Option.some.injEq, ← (h a ha).weightSum, (h c hc).weightSum]
  exact absurd hclimbs.heavier (not_lt.mpr hsame.ge)

end CostModel

namespace Gain

theorem isBetter_orders :
    (∀ a : Gain α, ¬a.isBetter a = true) ∧
    (∀ a b : Gain α, a.isBetter b = true → ¬b.isBetter a = true) ∧
    (∀ a b c : Gain α, a.isBetter b = true → b.isBetter c = true →
      (a.isBetter c = true ↔ ¬Climbs a b c ∧ ¬Climbs b c a ∧ ¬Climbs c a b)) ∧
    (∀ moves : List (Gain α), Level moves →
      ∀ a, ¬Relation.TransGen (fun a b => a ∈ moves ∧ b ∈ moves ∧ a.isBetter b = true) a a) ∧
    (∀ (first : Gain α) (rest : List (Gain α)), Level (first :: rest) →
      scan first rest ∈ first :: rest ∧
        ∀ move ∈ first :: rest, ¬move.isBetter (scan first rest) = true) ∧
    ∀ (model : CostModel α) (graph : Hypergraph α) (state : PartitionState α) (e : Nat)
      (moves : List (Gain α)), (∀ move ∈ moves, model.IsCandidate graph state e move) →
      Level moves :=
  ⟨isBetter_irrefl, fun _ _ => isBetter_asymm, fun _ _ _ => isBetter_trans_iff,
    fun _ => Level.no_cycle, fun _ _ => Level.scan_best,
    fun _ _ _ _ _ => CostModel.IsCandidate.level⟩

theorem isBetter_cycle :
    isBetter (⟨0, some 0, 0, 1⟩ : Gain ℚ) ⟨1, some 0, 8e-10, 2⟩ = true ∧
    isBetter (⟨1, some 0, 8e-10, 2⟩ : Gain ℚ) ⟨2, some 0, 16e-10, 3⟩ = true ∧
    isBetter (⟨2, some 0, 16e-10, 3⟩ : Gain ℚ) ⟨0, some 0, 0, 1⟩ = true ∧
    ¬isBetter (⟨0, some 0, 0, 1⟩ : Gain ℚ) ⟨2, some 0, 16e-10, 3⟩ = true := by
  -- In steps below the tolerance, of pins that get heavier, so that each is better than the next.
  decide +kernel

theorem isBetter_orders_chain :
    isBetter (⟨0, some 0, 5, 2⟩ : Gain ℚ) (.baseline 0 2) = true ∧
      ∀ move ∈ [(.baseline 0 2 : Gain ℚ), ⟨0, some 1, 3, 2⟩, ⟨0, some 0, 5, 2⟩],
        ¬move.isBetter (scan (.baseline 0 2) [⟨0, some 1, 3, 2⟩, ⟨0, some 0, 5, 2⟩]) = true := by
  obtain ⟨_, _, htrans, _, hscan, hlevel⟩ := isBetter_orders (α := ℚ)
  have hmoves : ∀ move ∈ [(.baseline 0 2 : Gain ℚ), ⟨0, some 1, 3, 2⟩, ⟨0, some 0, 5, 2⟩],
      CostModel.standard.IsCandidate .chain .chain 0 move := by
    intro move hmove
    simp only [List.mem_cons, List.not_mem_nil, or_false] at hmove
    obtain rfl | rfl | rfl := hmove
    . exact .baseline (by decide +kernel)
    . have hpriced : CostModel.standard.gain? .chain .chain 0 1 = some ⟨0, some 1, 3, 2⟩ := by
        decide +kernel
      exact .move hpriced
    . have hpriced : CostModel.standard.gain? .chain .chain 0 0 = some ⟨0, some 0, 5, 2⟩ := by
        decide +kernel
      exact .move hpriced
  have hlevel := hlevel _ _ _ _ _ hmoves
  constructor
  . rw [htrans _ ⟨0, some 1, 3, 2⟩ _ (by decide +kernel) (by decide +kernel)]
    refine ⟨?_, ?_, ?_⟩ <;> apply hlevel <;> simp
  . exact (hscan _ _ hlevel).right

end Gain

end CircuitPartition
