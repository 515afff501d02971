import CircuitPartition.Cost.Score
import CircuitPartition.Refine.Pass

/-!
Refinement in several passes, until one gains nothing.
-/

namespace CircuitPartition

structure RefineSummary (α : Type) where
  passes : Nat
  totalGain : α
  costBefore : α
  costAfter : α
  deriving DecidableEq, Repr

structure Passes (α : Type) where
  done : List (Pass α)
  failure : Option (Failure α)

structure Refinement (α : Type) where
  state : PartitionState α
  passes : List (Pass α)
  outcome : Except (Failure α) (RefineSummary α)

namespace Counting

variable {α : Type} [Scalar α] (counting : Counting) (model : CostModel α) (graph : Hypergraph α)

def runPasses (limits : RefineLimits) (bounds : Balance α) : Nat → PartitionState α → Passes α
  | 0, _ => ⟨[], none⟩
  | n + 1, state =>
    match counting.pass model graph limits bounds state with
    | .error failure => ⟨[], some failure⟩
    | .ok pass =>
      if pass.gain ≤ 0 then
        ⟨[pass], none⟩
      else
        let rest := runPasses limits bounds n pass.state
        ⟨pass :: rest.done, rest.failure⟩

def refine (limits : RefineLimits) (bounds : Balance α) (state : PartitionState α) :
    Refinement α :=
  match model.score graph state.solution with
  | .error failure => ⟨state, [], .error failure⟩
  | .ok before =>
    let run := counting.runPasses model graph limits bounds limits.maxPasses state
    let reached := (run.done.getLast?.map (·.state)).getD state
    match run.failure, model.score graph reached.solution with
    | some failure, _ => ⟨reached, run.done, .error failure⟩
    | none, .error failure => ⟨reached, run.done, .error failure⟩
    | none, .ok after =>
      ⟨reached, run.done, .ok {
        passes := run.done.length
        totalGain := Scalar.sum (run.done.map (·.gain))
        costBefore := before.cost
        costAfter := after.cost }⟩

end Counting

namespace CostModel

variable {α : Type} [Scalar α] (model : CostModel α) (graph : Hypergraph α)

def runPasses (limits : RefineLimits) (bounds : Balance α) (n : Nat) (state : PartitionState α) :
    Passes α :=
  Counting.unbounded.runPasses model graph limits bounds n state

def refine (limits : RefineLimits) (bounds : Balance α) (state : PartitionState α) :
    Refinement α :=
  Counting.unbounded.refine model graph limits bounds state

theorem unbounded_runPasses :
    Counting.unbounded.runPasses model graph = model.runPasses graph :=
  rfl

theorem runPasses_zero (limits : RefineLimits) (bounds : Balance α) (state : PartitionState α) :
    model.runPasses graph limits bounds 0 state = ⟨[], none⟩ :=
  rfl

theorem runPasses_succ (limits : RefineLimits) (bounds : Balance α) (n : Nat)
    (state : PartitionState α) :
    model.runPasses graph limits bounds (n + 1) state
      =
    match model.pass graph limits bounds state with
    | .error failure => ⟨[], some failure⟩
    | .ok pass =>
      if pass.gain ≤ 0 then
        ⟨[pass], none⟩
      else
        let rest := model.runPasses graph limits bounds n pass.state
        ⟨pass :: rest.done, rest.failure⟩ :=
  rfl

end CostModel

end CircuitPartition
