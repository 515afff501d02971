import CircuitPartition.Cost.Model
import CircuitPartition.Double
import CircuitPartition.Refine.Pass

/-!
The settings of a refinement run: a cost model, and limits for the refinement.
-/

namespace CircuitPartition

structure Config where
  evaluator : CostModel Double
  refiner : RefineLimits
  deriving DecidableEq, Repr

namespace Config

def standard : Config :=
  ⟨.standard, .standard⟩

def validate (config : Config) : Except ConfigError Unit :=
  config.evaluator.validate

end Config

end CircuitPartition
