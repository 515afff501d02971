import CircuitPartition.Config.Basic
import CircuitPartition.Decimal.Layout
import CircuitPartition.Report
import CircuitPartition.Word
import CircuitPartition.Yaml.Value

/-!
Configurations as YAML texts. Every field that a text leaves out has its standard value; keys that
are not known do not count.
-/

namespace CircuitPartition.Config

open Yaml (Document Node field?)

def readModel? (d : Document) (node : Node Nat) : Option (CostModel Double) := do
  let entries ← d.entries? node
  let standard : CostModel Double := .standard
  let number (factor : Factor) (default : Double) : Option Double :=
    field? entries factor.key default d.double?
  let numbers (factor : Factor) (default : List Double) : Option (List Double) :=
    field? entries factor.key default (d.list? d.double?)
  return {
    numParts := ← field? entries "num_parts" standard.numParts (d.nat? (Word.count 64))
    cutDelay := ← number .cutDelay standard.cutDelay
    hyperedgeFactors := ← numbers .hyperedgeWeights standard.hyperedgeFactors
    vertexFactors := ← numbers .vertexWeights standard.vertexFactors
    placementFactors := ← numbers .placement standard.placementFactors
    timingFactor := ← number .timing standard.timingFactor
    pathFactor := ← number .path standard.pathFactor
    snakingFactor := ← number .snaking standard.snakingFactor
    timingExponent := ← number .timingExponent standard.timingExponent }

def readLimits? (d : Document) (node : Node Nat) : Option RefineLimits := do
  let entries ← d.entries? node
  let standard := RefineLimits.standard
  return {
    maxMoves := ← field? entries "max_moves" standard.maxMoves (d.nat? (Word.count 64))
    maxPasses := ← field? entries "refiner_iters" standard.maxPasses (d.nat? (Word.count 64))
    checkConsistency :=
      ← field? entries "check_consistency" standard.checkConsistency d.bool? }

def read? (text : String) : Option Config := do
  let d ← Document.parse? text
  let entries ← d.entries? d.root
  return {
    evaluator := ← field? entries "evaluator" .standard (readModel? d)
    refiner := ← field? entries "refiner" .standard (readLimits? d) }

def ofYaml (text : String) : Except (Failure Double) Config :=
  match read? text with
  | none => .error (.document .malformedYaml)
  | some config => do
    config.validate
    return config

def yamlLayout : Decimal.Layout where
  positional := some (-5, 15)
  wholePoint := true
  exponentPlus := false
  tie := .toEven
  nan := ".nan"
  infinity := ".inf"

def entryLine (key value : String) : String :=
  "  " ++ key ++ ": " ++ value ++ "\n"

def numberLine (factor : Factor) (x : Double) : String :=
  entryLine factor.key (yamlLayout.render x)

def listLines (factor : Factor) : List Double → String
  | [] => entryLine factor.key "[]"
  | items => "  " ++ factor.key ++ ":\n" ++ String.join (items.map itemLine)
where
  itemLine (x : Double) : String :=
    "  - " ++ yamlLayout.render x ++ "\n"

def toYaml (config : Config) : String :=
  let model := config.evaluator
  let limits := config.refiner
  "evaluator:\n"
    ++ entryLine "num_parts" (toString model.numParts)
    ++ numberLine .cutDelay model.cutDelay
    ++ listLines .hyperedgeWeights model.hyperedgeFactors
    ++ listLines .vertexWeights model.vertexFactors
    ++ listLines .placement model.placementFactors
    ++ numberLine .timing model.timingFactor
    ++ numberLine .path model.pathFactor
    ++ numberLine .snaking model.snakingFactor
    ++ numberLine .timingExponent model.timingExponent
    ++ "refiner:\n"
    ++ entryLine "max_moves" (toString limits.maxMoves)
    ++ entryLine "refiner_iters" (toString limits.maxPasses)
    ++ entryLine "check_consistency" (if limits.checkConsistency then "true" else "false")

end CircuitPartition.Config
