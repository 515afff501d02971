import CircuitPartition.Proofs.Graph.Representation
import CircuitPartition.Proofs.Partition.Consistency

/-!
What the check of a state reports: nothing just if the state is consistent, and otherwise the first
thing that is wrong with it, at the first place where it is.
-/

namespace CircuitPartition

section First

variable {β : Type}

theorem find?_zipIdx_eq_some {p : β → Bool} {l : List β} {x : β} {i : Nat} :
    (l.zipIdx.find? fun (x, _) => p x) = some (x, i)
      ↔
    l[i]? = some x ∧ p x = true ∧ ∀ j < i, ∀ y, l[j]? = some y → p y = false := by
  rw [List.find?_eq_some_iff_getElem]
  simp only [List.getElem_zipIdx, List.length_zipIdx, Bool.not_eq_eq_eq_not, Bool.not_true,
    Prod.mk.injEq, Nat.zero_add]
  constructor
  . rintro ⟨hx, j, hj, ⟨rfl, rfl⟩, hbefore⟩
    refine ⟨List.getElem?_eq_getElem hj, hx, ?_⟩
    intro k hk y hy
    obtain ⟨_, rfl⟩ := List.getElem?_eq_some_iff.mp hy
    exact hbefore k hk
  . rintro ⟨hget, hx, hbefore⟩
    obtain ⟨hi, rfl⟩ := List.getElem?_eq_some_iff.mp hget
    refine ⟨hx, i, hi, ⟨rfl, rfl⟩, ?_⟩
    intro j hj
    exact hbefore j hj _ (List.getElem?_eq_getElem (Nat.lt_trans hj hi))

structure FirstApart (apart : β → β → Prop) (as bs : Array β) (i : Nat) (a b : β) : Prop where
  left : as[i]? = some a
  right : bs[i]? = some b
  isApart : apart a b
  before : ∀ j < i, ∀ a b, as[j]? = some a → bs[j]? = some b → ¬apart a b

variable {as bs : Array β} {f : β → β → Bool}

theorem find?_zip_eq_some_iff {a b : β} {i : Nat} :
    ((as.toList.zip bs.toList).zipIdx.find? fun ((a, b), _) => f a b) = some ((a, b), i)
      ↔
    FirstApart (fun a b => f a b = true) as bs i a b := by
  apply (find?_zipIdx_eq_some (p := fun pair => f pair.1 pair.2) (l := as.toList.zip bs.toList)
    (x := (a, b)) (i := i)).trans
  simp only [List.getElem?_zip_eq_some, Array.getElem?_toList, Prod.forall, and_imp]
  constructor
  . rintro ⟨⟨hleft, hright⟩, hapart, hbefore⟩
    refine ⟨hleft, hright, hapart, ?_⟩
    intro j hj a b ha hb
    simpa using hbefore j hj a b ha hb
  . rintro ⟨hleft, hright, hapart, hbefore⟩
    refine ⟨⟨hleft, hright⟩, hapart, ?_⟩
    intro j hj a b ha hb
    simpa using hbefore j hj a b ha hb

theorem forall₂_toList {R : β → β → Prop} (h : as.size = bs.size) :
    List.Forall₂ R as.toList bs.toList
      ↔
    ∀ (i : Nat) a b, as[i]? = some a → bs[i]? = some b → R a b := by
  rw [List.forall₂_iff_get]
  constructor
  . rintro ⟨_, hall⟩ i a b ha hb
    obtain ⟨hi, rfl⟩ := Array.getElem?_eq_some_iff.mp ha
    obtain ⟨hi', rfl⟩ := Array.getElem?_eq_some_iff.mp hb
    exact hall i hi hi'
  . intro hall
    refine ⟨h, ?_⟩
    intro i hi hi'
    exact hall i _ _ (Array.getElem?_eq_getElem hi) (Array.getElem?_eq_getElem hi')

theorem find?_zip_eq_none_iff (h : as.size = bs.size) :
    ((as.toList.zip bs.toList).zipIdx.find? fun ((a, b), _) => f a b) = none
      ↔
    List.Forall₂ (fun a b => f a b = false) as.toList bs.toList := by
  rw [forall₂_toList h, find?_zip_eq_none]
  simp only [Array.getElem?_toList]

theorem FirstApart.congr {R S : β → β → Prop} {i : Nat} {a b : β}
    (hRS : ∀ (j : Nat) a b, as[j]? = some a → bs[j]? = some b → (R a b ↔ S a b)) :
    FirstApart R as bs i a b ↔ FirstApart S as bs i a b := by
  constructor
  . rintro ⟨hleft, hright, hapart, hbefore⟩
    refine ⟨hleft, hright, (hRS i a b hleft hright).mp hapart, ?_⟩
    intro j hj c d hc hd
    exact mt (hRS j c d hc hd).mpr (hbefore j hj c d hc hd)
  . rintro ⟨hleft, hright, hapart, hbefore⟩
    refine ⟨hleft, hright, (hRS i a b hleft hright).mpr hapart, ?_⟩
    intro j hj c d hc hd
    exact mt (hRS j c d hc hd).mp (hbefore j hj c d hc hd)

end First

variable {α : Type}

def Hypergraph.countedFactors (graph : Hypergraph α) : List (Factor × Nat) :=
  [(.hyperedgeWeights, graph.dimensions.hyperedge), (.vertexWeights, graph.dimensions.vertex),
    (.placement, graph.dimensions.placement)]

theorem check_bind_eq_error {ε β : Type} {x : Except ε Unit} {f : Unit → Except ε β} {e : ε} :
    (x >>= f) = .error e ↔ x = .error e ∨ x = .ok () ∧ f () = .error e := by
  cases x with
  | error other => simp
  | ok b => simp

theorem Failure.liftM_config_eq_error {β : Type} {x : Except ConfigError β} {failure : Failure α}
    (h : (liftM x : Except (Failure α) β) = .error failure) :
    ∃ cause, x = .error cause ∧ failure = .config cause := by
  cases x with
  | ok b => exact absurd h nofun
  | error cause => exact ⟨cause, rfl, (Except.error.inj h).symm⟩

theorem forM_eq_error {ε β : Type} {f : β → Except ε Unit} {bs : List β} {e : ε} :
    bs.forM f = .error e
      ↔
    ∃ before b after, bs = before ++ b :: after ∧ (∀ b ∈ before, f b = .ok ()) ∧
      f b = .error e := by
  induction bs with
  | nil => simp [List.forM]
  | cons c bs ih =>
    unfold List.forM
    rw [check_bind_eq_error, ih]
    constructor
    . rintro (herror | ⟨hok, before, b, after, rfl, hbefore, herror⟩)
      . exact ⟨[], c, bs, rfl, List.forall_mem_nil _, herror⟩
      . exact ⟨c :: before, b, after, rfl, List.forall_mem_cons.mpr ⟨hok, hbefore⟩, herror⟩
    . rintro ⟨before, b, after, heq, hbefore, herror⟩
      cases before with
      | nil =>
        rw [List.nil_append, List.cons.injEq] at heq
        rw [heq.left]
        exact .inl herror
      | cons d before =>
        rw [List.cons_append, List.cons.injEq] at heq
        rw [List.forall_mem_cons] at hbefore
        rw [heq.left]
        exact .inr ⟨hbefore.left, before, b, after, heq.right, hbefore.right, herror⟩

namespace CostModel

def FactorsFit (model : CostModel α) (graph : Hypergraph α) : Prop :=
  ∀ entry ∈ graph.countedFactors, (model.values entry.1).length = entry.2

inductive Misfit (model : CostModel α) (graph : Hypergraph α) (solution : Solution) :
    Failure α → Prop where
  | factorCount {before after : List (Factor × Nat)} {factor : Factor} {expected : Nat} :
    graph.countedFactors = before ++ (factor, expected) :: after →
    (∀ entry ∈ before, (model.values entry.1).length = entry.2) →
    (model.values factor).length ≠ expected →
    Misfit model graph solution
      (.config (.factorCount factor expected (model.values factor).length))
  | length :
    model.FactorsFit graph → solution.size ≠ graph.numVertices →
    Misfit model graph solution
      (.precondition (.solutionLength graph.numVertices solution.size))
  | block {v block : Nat} :
    model.FactorsFit graph → solution.size = graph.numVertices → solution[v]? = some block →
    model.numParts ≤ block →
    (∀ u < v, ∀ other, solution[u]? = some other → other < model.numParts) →
    Misfit model graph solution (.precondition (.blockOutOfRange v block model.numParts))

variable {model : CostModel α} {graph : Hypergraph α} {solution : Solution}

theorem checkCompatible_eq_forM :
    model.checkCompatible graph
      =
    graph.countedFactors.forM fun (factor, expected) =>
      checkCompatible.check model factor expected := by
  unfold checkCompatible Hypergraph.countedFactors
  simp [List.forM, -pure_eq_ok]

theorem check_eq_ok {factor : Factor} {expected : Nat} :
    checkCompatible.check model factor expected = .ok ()
      ↔
    (model.values factor).length = expected := by
  simp [checkCompatible.check]

theorem check_eq_error {factor : Factor} {expected : Nat} {cause : ConfigError} :
    checkCompatible.check model factor expected = .error cause
      ↔
    (model.values factor).length ≠ expected ∧
      cause = .factorCount factor expected (model.values factor).length := by
  unfold checkCompatible.check
  dsimp only
  split
  . next heq => simp [heq]
  . next hne => simp [hne, eq_comm]

theorem checkCompatible_eq_ok_iff :
    model.checkCompatible graph = .ok () ↔ model.FactorsFit graph := by
  rw [checkCompatible_eq_forM, forM_eq_ok]
  simp only [check_eq_ok]
  rfl

theorem checkCompatible_eq_error {cause : ConfigError} :
    model.checkCompatible graph = .error cause
      ↔
    ∃ before factor expected after, graph.countedFactors = before ++ (factor, expected) :: after ∧
      (∀ entry ∈ before, (model.values entry.1).length = entry.2) ∧
      (model.values factor).length ≠ expected ∧
      cause = .factorCount factor expected (model.values factor).length := by
  rw [checkCompatible_eq_forM, forM_eq_error]
  simp only [Prod.exists, Prod.forall, check_eq_ok, check_eq_error]

theorem find?_outOfRange_eq_some {v block : Nat} :
    (solution.toList.zipIdx.find? fun (block, _) => model.numParts ≤ block) = some (block, v)
      ↔
    solution[v]? = some block ∧ model.numParts ≤ block ∧
      ∀ u < v, ∀ other, solution[u]? = some other → other < model.numParts := by
  have hfind := find?_zipIdx_eq_some (p := fun block => decide (model.numParts ≤ block))
    (l := solution.toList) (x := block) (i := v)
  simpa using hfind

theorem checkSolution_eq_error {failure : Failure α} :
    model.checkSolution graph solution = .error failure ↔ model.Misfit graph solution failure := by
  unfold checkSolution
  rw [check_bind_eq_error, Failure.liftM_config_eq_ok, checkCompatible_eq_ok_iff]
  simp only [throw_eq_error, error_bind]
  constructor
  . rintro (herror | ⟨hfit, herror⟩)
    . obtain ⟨cause, hcause, rfl⟩ := Failure.liftM_config_eq_error herror
      obtain ⟨before, factor, expected, after, hsplit, hbefore, hcount, rfl⟩ :=
        checkCompatible_eq_error.mp hcause
      exact .factorCount hsplit hbefore hcount
    . split at herror
      . next hsize =>
        rw [Except.error.injEq] at herror
        subst herror
        exact .length hfit hsize
      . next hsize =>
        split at herror
        . next block v hfind =>
          rw [Except.error.injEq] at herror
          subst herror
          obtain ⟨hget, hle, hbefore⟩ := find?_outOfRange_eq_some.mp hfind
          exact .block hfit (not_not.mp hsize) hget hle hbefore
        . simp at herror
  . intro h
    cases h with
    | factorCount hsplit hbefore hcount =>
      left
      rw [checkCompatible_eq_error.mpr ⟨_, _, _, _, hsplit, hbefore, hcount, rfl⟩]
      rfl
    | length hfit hsize =>
      refine .inr ⟨hfit, ?_⟩
      rw [if_pos hsize]
    | block hfit hsize hget hle hbefore =>
      refine .inr ⟨hfit, ?_⟩
      rw [if_neg (not_not.mpr hsize), find?_outOfRange_eq_some.mpr ⟨hget, hle, hbefore⟩]

theorem admits_iff :
    model.Admits graph solution
      ↔
    model.FactorsFit graph ∧ solution.size = graph.numVertices ∧
      ∀ block ∈ solution, block < model.numParts := by
  rw [← checkCompatible_eq_ok_iff]
  exact ⟨fun h => ⟨h.compatible, h.size_eq, h.lt⟩, fun h => ⟨h.left, h.right.left, h.right.right⟩⟩

end CostModel

namespace PartitionState

section Drift

variable [Scalar α]

def Close (a b : α) : Prop :=
  approxEq a b driftTolerance = true

structure Matches (state truth : PartitionState α) : Prop where
  netDegrees : state.netDegrees = truth.netDegrees
  blockBalance :
    List.Forall₂ (List.Forall₂ Close) state.blockBalance.toList truth.blockBalance.toList
  pathCosts : List.Forall₂ Close state.pathCosts.toList truth.pathCosts.toList

inductive Drift (state truth : PartitionState α) : PreconditionError α → Prop where
  | netDegrees {e : Nat} {ours theirs : Degrees} :
    FirstApart (· ≠ ·) state.netDegrees truth.netDegrees e ours theirs →
    Drift state truth (.netDegreeDrift e theirs ours)
  | blockBalance {block : Nat} {ours theirs : List α} :
    state.netDegrees = truth.netDegrees →
    FirstApart (¬List.Forall₂ Close · ·) state.blockBalance truth.blockBalance block ours theirs →
    Drift state truth (.blockBalanceDrift block theirs ours)
  | pathCosts {p : Nat} {ours theirs : α} :
    state.netDegrees = truth.netDegrees →
    List.Forall₂ (List.Forall₂ Close) state.blockBalance.toList truth.blockBalance.toList →
    FirstApart (¬Close · ·) state.pathCosts truth.pathCosts p ours theirs →
    Drift state truth (.pathCostDrift p theirs ours)

theorem sameWeights_eq_true {ours theirs : List α} (h : ours.length = theirs.length) :
    sameWeights ours theirs = true ↔ List.Forall₂ Close ours theirs := by
  unfold sameWeights
  rw [List.all_eq_true, List.forall₂_iff_zip]
  constructor
  . intro hall
    refine ⟨h, ?_⟩
    intro a b hmem
    exact hall (a, b) hmem
  . rintro ⟨_, hclose⟩ ⟨a, b⟩ hmem
    exact hclose hmem

end Drift

def HasDegrees (model : CostModel α) (graph : Hypergraph α) (state : PartitionState α) : Prop :=
  state.netDegrees.size = graph.numHyperedges ∧
    ∀ degrees ∈ state.netDegrees, degrees.size = model.numParts

def HasBalance (model : CostModel α) (graph : Hypergraph α) (state : PartitionState α) : Prop :=
  state.blockBalance.HasShape model.numParts graph.dimensions.vertex

inductive Misshapen (model : CostModel α) (graph : Hypergraph α) (state : PartitionState α) :
    PreconditionError α → Prop where
  | netDegrees :
    ¬state.HasDegrees model graph →
    Misshapen model graph state (.stateShape .netDegrees graph.numHyperedges model.numParts)
  | blockBalance :
    state.HasDegrees model graph → ¬state.HasBalance model graph →
    Misshapen model graph state (.stateShape .blockBalance model.numParts graph.dimensions.vertex)
  | pathCosts :
    state.HasDegrees model graph → state.HasBalance model graph →
    state.pathCosts.size ≠ graph.numPaths →
    Misshapen model graph state (.stateShape .pathCosts graph.numPaths 1)

variable {model : CostModel α} {graph : Hypergraph α} {state truth : PartitionState α}

theorem hasDegrees_iff :
    state.HasDegrees model graph
      ↔
    ¬(state.netDegrees.size ≠ graph.numHyperedges ∨
      state.netDegrees.any (·.size ≠ model.numParts) = true) := by
  simp only [HasDegrees, not_or, not_not, Array.any_eq_true', decide_eq_true_eq, not_exists,
    not_and]

theorem checkShape_eq_error {failure : Failure α} :
    state.checkShape model graph = .error failure
      ↔
    model.Misfit graph state.solution failure ∨
      model.Admits graph state.solution ∧
        ∃ cause, state.Misshapen model graph cause ∧ failure = .precondition cause := by
  unfold checkShape
  rw [check_bind_eq_error, CostModel.checkSolution_eq_error, CostModel.checkSolution_eq_ok]
  simp only [throw_eq_error, error_bind, pure_eq_ok]
  refine or_congr_right (and_congr_right fun _ => ?_)
  constructor
  . intro h
    split at h
    . next hdegrees =>
      rw [Except.error.injEq] at h
      exact ⟨_, .netDegrees (mt hasDegrees_iff.mp (not_not.mpr hdegrees)), h.symm⟩
    . next hdegrees =>
      split at h
      . next hbalance =>
        rw [Except.error.injEq] at h
        exact ⟨_, .blockBalance (hasDegrees_iff.mpr hdegrees)
          (mt Balance.hasShape_iff.mp (not_not.mpr hbalance)), h.symm⟩
      . next hbalance =>
        split at h
        . next hcosts =>
          rw [Except.error.injEq] at h
          exact ⟨_, .pathCosts (hasDegrees_iff.mpr hdegrees) (Balance.hasShape_iff.mpr hbalance)
            hcosts, h.symm⟩
        . simp at h
  . rintro ⟨cause, hcause, rfl⟩
    cases hcause with
    | netDegrees hdegrees => rw [if_pos (not_not.mp (mt hasDegrees_iff.mpr hdegrees))]
    | blockBalance hdegrees hbalance =>
      rw [if_neg (hasDegrees_iff.mp hdegrees),
        if_pos (not_not.mp (mt Balance.hasShape_iff.mpr hbalance))]
    | pathCosts hdegrees hbalance hcosts =>
      rw [if_neg (hasDegrees_iff.mp hdegrees), if_neg (Balance.hasShape_iff.mp hbalance),
        if_pos hcosts]

theorem firstApart_netDegrees {e : Nat} {ours theirs : Degrees} :
    FirstApart (fun ours theirs => decide (ours ≠ theirs) = true) state.netDegrees
        truth.netDegrees e ours theirs
      ↔
    FirstApart (· ≠ ·) state.netDegrees truth.netDegrees e ours theirs := by
  simp only [decide_eq_true_eq]

theorem firstApart_pathCosts [Scalar α] {p : Nat} {ours theirs : α} :
    FirstApart (fun ours theirs => (!approxEq ours theirs driftTolerance) = true) state.pathCosts
        truth.pathCosts p ours theirs
      ↔
    FirstApart (¬Close · ·) state.pathCosts truth.pathCosts p ours theirs := by
  simp only [Bool.not_eq_true', Close, Bool.not_eq_true]

section Tables

variable [Scalar α]
  (h : state.Shaped model graph) (htruth : truth.Shaped model graph)

include h htruth

omit [Scalar α] in
theorem Shaped.find?_netDegrees :
    (((state.netDegrees.toList.zip truth.netDegrees.toList).zipIdx.find?
      fun ((ours, theirs), _) => ours ≠ theirs) = none
        ↔
      state.netDegrees = truth.netDegrees) := by
  have hsize : state.netDegrees.size = truth.netDegrees.size := by
    rw [h.size_netDegrees, htruth.size_netDegrees]
  have hfind := find?_zip_eq_none_iff (f := fun ours theirs => decide (ours ≠ theirs)) hsize
  dsimp only at hfind ⊢
  rw [hfind]
  simp [List.forall₂_eq_eq_eq]

theorem Shaped.sameWeights_eq_true {block : Nat} {ours theirs : List α}
    (hours : state.blockBalance[block]? = some ours)
    (htheirs : truth.blockBalance[block]? = some theirs) :
    sameWeights ours theirs = true ↔ List.Forall₂ Close ours theirs := by
  apply PartitionState.sameWeights_eq_true
  rw [h.hasShape.length_eq _ (Array.mem_of_getElem? hours),
    htruth.hasShape.length_eq _ (Array.mem_of_getElem? htheirs)]

theorem Shaped.find?_blockBalance :
    (((state.blockBalance.toList.zip truth.blockBalance.toList).zipIdx.find?
      fun ((ours, theirs), _) => !sameWeights ours theirs) = none
        ↔
      List.Forall₂ (List.Forall₂ Close) state.blockBalance.toList truth.blockBalance.toList) := by
  have hsize : state.blockBalance.size = truth.blockBalance.size := by
    rw [h.hasShape.size_eq, htruth.hasShape.size_eq]
  have hfind := find?_zip_eq_none_iff (f := fun ours theirs => !sameWeights ours theirs) hsize
  dsimp only at hfind ⊢
  rw [hfind, forall₂_toList hsize, forall₂_toList hsize]
  simp only [Bool.not_eq_false']
  constructor
  . intro hall block ours theirs hours htheirs
    exact (h.sameWeights_eq_true htruth hours htheirs).mp (hall block ours theirs hours htheirs)
  . intro hall block ours theirs hours htheirs
    exact (h.sameWeights_eq_true htruth hours htheirs).mpr (hall block ours theirs hours htheirs)

theorem Shaped.find?_pathCosts :
    (((state.pathCosts.toList.zip truth.pathCosts.toList).zipIdx.find?
      fun ((ours, theirs), _) => !approxEq ours theirs driftTolerance) = none
        ↔
      List.Forall₂ Close state.pathCosts.toList truth.pathCosts.toList) := by
  have hsize : state.pathCosts.size = truth.pathCosts.size := by
    rw [h.size_pathCosts, htruth.size_pathCosts]
  have hfind := find?_zip_eq_none_iff (f := fun ours theirs : α =>
    !approxEq ours theirs driftTolerance) hsize
  dsimp only at hfind ⊢
  rw [hfind]
  simp only [Bool.not_eq_false']
  rfl

theorem Shaped.findDrift_eq_none : state.findDrift truth = none ↔ state.Matches truth := by
  have hdegrees := h.find?_netDegrees htruth
  have hbalance := h.find?_blockBalance htruth
  have hcosts := h.find?_pathCosts htruth
  unfold findDrift
  dsimp only
  constructor
  . intro hnone
    split at hnone
    . simp at hnone
    . next hfindDegrees =>
      split at hnone
      . simp at hnone
      . next hfindBalance =>
        split at hnone
        . simp at hnone
        . next hfindCosts =>
          exact ⟨hdegrees.mp hfindDegrees, hbalance.mp hfindBalance, hcosts.mp hfindCosts⟩
  . intro hmatches
    rw [hdegrees.mpr hmatches.netDegrees, hbalance.mpr hmatches.blockBalance,
      hcosts.mpr hmatches.pathCosts]

theorem Shaped.findDrift_eq_some {cause : PreconditionError α} :
    state.findDrift truth = some cause ↔ state.Drift truth cause := by
  have hdegrees := h.find?_netDegrees htruth
  have hbalance := h.find?_blockBalance htruth
  have hfirstBalance {block : Nat} {ours theirs : List α} :
      FirstApart (fun ours theirs => (!sameWeights ours theirs) = true) state.blockBalance
          truth.blockBalance block ours theirs
        ↔
      FirstApart (¬List.Forall₂ Close · ·) state.blockBalance truth.blockBalance block ours
        theirs := by
    apply FirstApart.congr
    intro block ours theirs hours htheirs
    rw [Bool.not_eq_true', ← h.sameWeights_eq_true htruth hours htheirs, Bool.not_eq_true]
  unfold findDrift
  dsimp only
  constructor
  . intro hsome
    split at hsome
    . next ours theirs e hfind =>
      rw [Option.some.injEq] at hsome
      subst hsome
      exact .netDegrees (firstApart_netDegrees.mp (find?_zip_eq_some_iff.mp hfind))
    . next hfindDegrees =>
      split at hsome
      . next ours theirs block hfind =>
        rw [Option.some.injEq] at hsome
        subst hsome
        exact .blockBalance (hdegrees.mp hfindDegrees)
          (hfirstBalance.mp (find?_zip_eq_some_iff.mp hfind))
      . next hfindBalance =>
        split at hsome
        . next ours theirs p hfind =>
          rw [Option.some.injEq] at hsome
          subst hsome
          exact .pathCosts (hdegrees.mp hfindDegrees) (hbalance.mp hfindBalance)
            (firstApart_pathCosts.mp (find?_zip_eq_some_iff.mp hfind))
        . simp at hsome
  . intro hdrift
    cases hdrift with
    | netDegrees hfirst =>
      rw [find?_zip_eq_some_iff.mpr (firstApart_netDegrees.mpr hfirst)]
    | blockBalance hequal hfirst =>
      rw [hdegrees.mpr hequal, find?_zip_eq_some_iff.mpr (hfirstBalance.mpr hfirst)]
    | pathCosts hequal hclose hfirst =>
      rw [hdegrees.mpr hequal, hbalance.mpr hclose,
        find?_zip_eq_some_iff.mpr (firstApart_pathCosts.mpr hfirst)]

end Tables

/--
A valid solution, tables of the right shapes, and in them what a recomputation gives: the degrees
exactly, every weight and every path cost up to the tolerance.
-/
structure Consistent [Scalar α] (model : CostModel α) (graph : Hypergraph α)
    (state : PartitionState α) : Prop where
  factorsFit : model.FactorsFit graph
  solution_size : state.solution.size = graph.numVertices
  solution_lt : ∀ block ∈ state.solution, block < model.numParts
  hasDegrees : state.HasDegrees model graph
  hasBalance : state.HasBalance model graph
  pathCosts_size : state.pathCosts.size = graph.numPaths
  netDegrees : model.netDegrees graph state.solution = .ok state.netDegrees
  blockBalance : ∃ truth, model.blockBalance graph state.solution = .ok truth ∧
    List.Forall₂ (List.Forall₂ Close) state.blockBalance.toList truth.toList
  pathCosts : ∃ truth, model.pathCosts graph state.solution = .ok truth ∧
    List.Forall₂ Close state.pathCosts.toList truth

inductive Refusal [Scalar α] (model : CostModel α) (graph : Hypergraph α)
    (state : PartitionState α) : Failure α → Prop where
  | misfit {failure : Failure α} :
    model.Misfit graph state.solution failure → Refusal model graph state failure
  | misshapen {cause : PreconditionError α} :
    model.Admits graph state.solution → state.Misshapen model graph cause →
    Refusal model graph state (.precondition cause)
  | drift {truth : PartitionState α} {cause : PreconditionError α} :
    state.Shaped model graph → ofSolution model graph state.solution = .ok truth →
    state.Drift truth cause → Refusal model graph state (.precondition cause)

section Outcome

variable [Scalar α] {model : CostModel α} {graph : Hypergraph α} {state : PartitionState α}
  (hg : graph.WellFormed)

include hg

theorem consistent_iff :
    state.Consistent model graph
      ↔
    state.Shaped model graph ∧ state.Matches (recomputed model graph state.solution) := by
  constructor
  . intro h
    have hadmits : model.Admits graph state.solution :=
      CostModel.admits_iff.mpr ⟨h.factorsFit, h.solution_size, h.solution_lt⟩
    obtain ⟨balance, hbalance, hweights⟩ := h.blockBalance
    obtain ⟨costs, hcosts, hclose⟩ := h.pathCosts
    have hdegrees := h.netDegrees
    rw [hadmits.netDegrees hg, Except.ok.injEq] at hdegrees
    rw [hadmits.blockBalance hg, Except.ok.injEq] at hbalance
    rw [hadmits.pathCosts hg, Except.ok.injEq] at hcosts
    subst hbalance hcosts
    exact ⟨⟨hadmits, h.hasDegrees.left, h.hasDegrees.right, h.hasBalance, h.pathCosts_size⟩,
      ⟨hdegrees.symm, hweights, hclose⟩⟩
  . rintro ⟨h, hmatches⟩
    obtain ⟨hfit, hsize, hlt⟩ := CostModel.admits_iff.mp h.admits
    constructor
    . exact hfit
    . exact hsize
    . exact hlt
    . exact ⟨h.size_netDegrees, h.size_degrees⟩
    . exact h.hasShape
    . exact h.size_pathCosts
    . rw [h.admits.netDegrees hg, hmatches.netDegrees]
      rfl
    . exact ⟨_, h.admits.blockBalance hg, hmatches.blockBalance⟩
    . exact ⟨_, h.admits.pathCosts hg, hmatches.pathCosts⟩

theorem checkConsistency_eq_ok_iff :
    state.checkConsistency model graph = .ok () ↔ state.Consistent model graph := by
  rw [consistent_iff hg]
  constructor
  . intro hok
    have hshaped : state.Shaped model graph := by
      unfold checkConsistency at hok
      rw [check_bind_eq_ok] at hok
      exact checkShape_eq_ok.mp hok.left
    have htruth := (inStep_recomputed hshaped.admits).shaped
    rw [hshaped.checkConsistency_eq hg] at hok
    refine ⟨hshaped, (hshaped.findDrift_eq_none htruth).mp ?_⟩
    split at hok
    . simp at hok
    . next hnone => exact hnone
  . rintro ⟨hshaped, hmatches⟩
    have htruth := (inStep_recomputed hshaped.admits).shaped
    rw [hshaped.checkConsistency_eq hg, (hshaped.findDrift_eq_none htruth).mpr hmatches]

theorem checkConsistency_eq_error_iff {failure : Failure α} :
    state.checkConsistency model graph = .error failure ↔ state.Refusal model graph failure := by
  have hsplit : state.checkConsistency model graph = .error failure
      ↔
      state.checkShape model graph = .error failure ∨
        state.Shaped model graph ∧ state.checkConsistency model graph = .error failure := by
    rw [← checkShape_eq_ok]
    unfold checkConsistency
    rw [check_bind_eq_error]
    tauto
  rw [hsplit, checkShape_eq_error]
  constructor
  . rintro ((hmisfit | ⟨hadmits, cause, hmisshapen, rfl⟩) | ⟨hshaped, herror⟩)
    . exact .misfit hmisfit
    . exact .misshapen hadmits hmisshapen
    . have htruth := (inStep_recomputed hshaped.admits).shaped
      rw [hshaped.checkConsistency_eq hg] at herror
      split at herror
      . next cause hsome =>
        rw [Except.error.injEq] at herror
        subst herror
        exact .drift hshaped (ofSolution_of_admits hg hshaped.admits)
          ((hshaped.findDrift_eq_some htruth).mp hsome)
      . simp at herror
  . intro h
    cases h with
    | misfit hmisfit => exact .inl (.inl hmisfit)
    | misshapen hadmits hmisshapen => exact .inl (.inr ⟨hadmits, _, hmisshapen, rfl⟩)
    | drift hshaped htruth hdrift =>
      rw [ofSolution_of_admits hg hshaped.admits, Except.ok.injEq] at htruth
      subst htruth
      have htruth := (inStep_recomputed hshaped.admits).shaped
      refine .inr ⟨hshaped, ?_⟩
      rw [hshaped.checkConsistency_eq hg, (hshaped.findDrift_eq_some htruth).mpr hdrift]

end Outcome

theorem checkConsistency_reports {graph : Hypergraph Double} (h : graph.Obtained)
    (changes : List (Change Double)) (model : CostModel Double) (state : PartitionState Double) :
    let current := graph.changeAll changes
    (state.checkConsistency model current = .ok () ↔ state.Consistent model current) ∧
      ∀ failure, state.checkConsistency model current = .error failure
        ↔ state.Refusal model current failure := by
  have hg : (graph.changeAll changes).WellFormed := (h.reachable.changeAll changes).wellFormed
  exact ⟨checkConsistency_eq_ok_iff hg, fun _ => checkConsistency_eq_error_iff hg⟩

theorem checkConsistency_reports_thereAndBack :
    let graph := Hypergraph.thereAndBack
    let close : PartitionState Double := ⟨#[0, 0], #[[2.000001], [0]], #[#[2, 0]], #[1e-7]⟩
    let far : PartitionState Double := ⟨#[0, 0], #[[2.00001], [1]], #[#[2, 0]], #[1]⟩
    graph.Obtained ∧ close.Consistent .standard graph ∧
      far.Refusal .standard graph (.precondition (.blockBalanceDrift 0 [2] [2.00001])) := by
  intro graph close far
  have h : graph.Obtained := Hypergraph.obtained_thereAndBack
  have hok : close.checkConsistency .standard graph = .ok () := by decide +kernel
  have herror : far.checkConsistency .standard graph
      = .error (.precondition (.blockBalanceDrift 0 [2] [2.00001])) := by
    decide +kernel
  exact ⟨h, (checkConsistency_reports h [] .standard close).left.mp hok,
    ((checkConsistency_reports h [] .standard far).right _).mp herror⟩

end PartitionState

end CircuitPartition
