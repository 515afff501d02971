import CircuitPartition.Cost.Slack
import CircuitPartition.Decimal.Fixed
import CircuitPartition.Refine.Run
import CircuitPartition.Report

/-!
What the operations have to tell besides their results. The events follow from the results, so no
operation writes a log; the lines follow from the events.
-/

namespace CircuitPartition

inductive Event where
  | modelRejected (cause : ConfigError)
  | scored (cost cutCost pathCost : Double)
  | blockBalance (block : Nat) (weight : List Double)
  | noTimingToInitialize
  | noTimingToUpdate
  | timingInitialized (paths hyperedges : Nat)
  | budgetReached (maxMoves hyperedge : Nat)
  | passGained (pass : Nat) (gain : Double)
  | refined (passes : Nat) (costBefore costAfter : Double)

namespace Event

def line : Event → String
  | modelRejected cause => "ERROR rejecting evaluator configuration: " ++ cause.report.toString
  | scored cost cutCost pathCost =>
    "INFO partition cost " ++ number cost ++ " (cut " ++ number cutCost ++ ", paths "
      ++ number pathCost ++ ")"
  | blockBalance block weight =>
    s!"INFO block {block} balance " ++ Decimal.bracketed (weight.map Decimal.Layout.tagged.render)
  | noTimingToInitialize => "DEBUG hypergraph has no timing data; skipping timing initialization"
  | noTimingToUpdate => "DEBUG hypergraph has no timing data; skipping timing update"
  | timingInitialized paths hyperedges =>
    s!"DEBUG initialized timing for {paths} paths and {hyperedges} hyperedges"
  | budgetReached maxMoves hyperedge =>
    s!"DEBUG move budget of {maxMoves} reached at hyperedge {hyperedge}"
  | passGained pass gain => s!"DEBUG refinement pass {pass} gained " ++ number gain
  | refined passes costBefore costAfter =>
    s!"INFO greedy refinement: {passes} passes, cost " ++ number costBefore ++ " -> "
      ++ number costAfter
where
  number (x : Double) : String :=
    Decimal.fixed 4 x

def ofAcceptance : Except ConfigError Unit → List Event
  | .ok () => []
  | .error cause => [modelRejected cause]

def ofScore (score : Score Double) : List Event :=
  scored score.cost score.cutCost score.pathCost ::
    score.balance.toList.zipIdx.map fun (weight, block) => blockBalance block weight

def ofInitialization (graph : Hypergraph Double) : List Event :=
  match graph.timing with
  | none => [noTimingToInitialize]
  | some timing => [timingInitialized timing.paths.size timing.hyperedgeSlack.size]

def ofUpdate (update : TimingUpdate Double) : List Event :=
  match update.outcome, update.graph.timing with
  | .error _, _ => []
  | .ok (), none => [noTimingToUpdate]
  | .ok (), some _ => ofInitialization update.graph

def ofPass (limits : RefineLimits) (pass : Pass Double) : List Event :=
  match pass.stoppedAt with
  | none => []
  | some e => [budgetReached limits.maxMoves e]

def ofRefinement (limits : RefineLimits) (run : Refinement Double) : List Event :=
  run.passes.zipIdx.flatMap (fun (pass, i) => ofPass limits pass ++ [passGained i pass.gain])
    ++ match run.outcome with
      | .error _ => []
      | .ok summary => [refined summary.passes summary.costBefore summary.costAfter]

end Event

end CircuitPartition
