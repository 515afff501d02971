import CircuitPartition.Config.Basic
import CircuitPartition.Cost.Score
import CircuitPartition.Json.Parser
import CircuitPartition.Json.Printer
import CircuitPartition.Json.Record
import CircuitPartition.Refine.Run
import CircuitPartition.Report
import CircuitPartition.Snapshot.Text

/-!
The JSON forms of reports, results and settings.
-/

namespace CircuitPartition

class JsonForm (β : Type) where
  toJson : β → Json
  ofJson? : Json → Option β

namespace JsonForm

variable {β : Type} [JsonForm β]

def toText (value : β) : String :=
  (toJson value).compact

def ofText? (text : String) : Option β :=
  (Json.parse? text).bind ofJson?

instance : JsonForm SchemaVersion :=
  ⟨SchemaVersion.toJson, SchemaVersion.ofJson?⟩

def contextToJson (context : Context) : Json :=
  .ofFields (context.map fun (key, value) => (key, .ofString value))

def contextOfJson? : Json → Option Context
  | .object entries => do
    return Context.ofList (← entries.mapM fun (key, value) => return (← key, ← value.text?))
  | _ => none

instance : JsonForm Detail where
  toJson d := .ofFields <|
    [("code", .ofString d.code), ("message", .ofString d.message),
      ("context", contextToJson d.context)]
    ++ d.hint.elim [] fun hint => [("hint", .ofString hint)]
  ofJson? value := do
    match ← value.record? [⟨"code", .required⟩, ⟨"message", .required⟩, ⟨"context", .defaulted⟩,
      ⟨"hint", .optional⟩] with
    | [some code, some message, context, hint] =>
      return {
        code := ← code.text?
        message := ← message.text?
        context := ← Json.orDefault? [] contextOfJson? context
        hint := ← Json.optional? Json.text? hint }
    | _ => none

mutual

def isHoldable (depth : Nat) : Json → Bool
  -- Numbers are in range, strings have a text, and the nesting is not deeper than `depth`.
  | .null | .bool _ => true
  | .number lexeme => (Json.number lexeme).double?.isSome
  | .string text => text.isSome
  | .array items => 0 < depth && areHoldable (depth - 1) items
  | .object entries => 0 < depth && entriesAreHoldable (depth - 1) entries

def areHoldable (depth : Nat) : List Json → Bool
  | [] => true
  | item :: items => isHoldable depth item && areHoldable depth items

def entriesAreHoldable (depth : Nat) : List (Option String × Json) → Bool
  | [] => true
  | (key, value) :: entries =>
    key.isSome && isHoldable depth value && entriesAreHoldable depth entries

end

def familyOfJson? : Json → Option Family
  | .string (some tag) => Family.ofTag? tag
  | _ => none

def keyedFamilyOfJson? : Json → Option Family
  | .object [(some tag, .null)] => Family.ofTag? tag
  | value => familyOfJson? value

def precedes (entries : List (Option String × Json)) (first second : String) : Bool :=
  (entries.map (·.1)).idxOf (some first) < (entries.map (·.1)).idxOf (some second)

/--
A report is a family and a detail. The fields of an object may come in either order, but a detail
that comes first has to be held until the family is known.
-/
instance : JsonForm Report where
  toJson r := .ofFields [("family", .ofString r.family.tag), ("detail", toJson r.detail)]
  ofJson? value := do
    match ← value.record? [⟨"family", .required⟩, ⟨"detail", .required⟩], value with
    | [some family, some detail], .object entries =>
      if precedes entries "detail" "family" && !isHoldable 126 detail then
        none
      return ⟨← keyedFamilyOfJson? family, ← ofJson? detail⟩
    | [some family, some detail], _ => return ⟨← familyOfJson? family, ← ofJson? detail⟩
    | _, _ => none

instance : JsonForm (Rating Double) where
  toJson r := .ofFields [("cost", .ofDouble r.cost),
    ("block_balance", .array (r.blockBalance.toList.map Json.ofDoubles))]
  ofJson? value := do
    match ← value.record? [⟨"cost", .required⟩, ⟨"block_balance", .required⟩] with
    | [some cost, some balance] =>
      return ⟨← cost.double?, (← balance.list? (Json.list? Json.double?)).toArray⟩
    | _ => none

instance : JsonForm (TimingCuts Double) where
  toJson c := .ofFields [("total", .ofNat c.total), ("worst", .ofNat c.worst),
    ("average", .ofDouble c.average)]
  ofJson? value := do
    match ← value.record? [⟨"total", .required⟩, ⟨"worst", .required⟩, ⟨"average", .required⟩] with
    | [some total, some worst, some average] =>
      return ⟨← total.index?, ← worst.index?, ← average.double?⟩
    | _ => none

instance : JsonForm (Gain Double) where
  toJson g := .ofFields [("hyperedge", .ofNat g.hyperedge), ("target", g.target.elim .null .ofNat),
    ("gain", .ofDouble g.gain), ("vertex_weight_sum", .ofDouble g.weightSum)]
  ofJson? value := do
    match ← value.record? [⟨"hyperedge", .required⟩, ⟨"target", .optional⟩, ⟨"gain", .required⟩,
      ⟨"vertex_weight_sum", .required⟩] with
    | [some hyperedge, target, some gain, some weightSum] =>
      return ⟨← hyperedge.index?, ← Json.optional? Json.index? target, ← gain.double?,
        ← weightSum.double?⟩
    | _ => none

instance : JsonForm (RefineSummary Double) where
  toJson s := .ofFields [("passes", .ofNat s.passes), ("total_gain", .ofDouble s.totalGain),
    ("cost_before", .ofDouble s.costBefore), ("cost_after", .ofDouble s.costAfter)]
  ofJson? value := do
    match ← value.record? [⟨"passes", .required⟩, ⟨"total_gain", .required⟩,
      ⟨"cost_before", .required⟩, ⟨"cost_after", .required⟩] with
    | [some passes, some totalGain, some costBefore, some costAfter] =>
      return ⟨← passes.index?, ← totalGain.double?, ← costBefore.double?, ← costAfter.double?⟩
    | _ => none

instance : JsonForm (CostModel Double) where
  toJson m := .ofFields [("num_parts", .ofNat m.numParts),
    (Factor.cutDelay.key, .ofDouble m.cutDelay),
    (Factor.hyperedgeWeights.key, .ofDoubles m.hyperedgeFactors),
    (Factor.vertexWeights.key, .ofDoubles m.vertexFactors),
    (Factor.placement.key, .ofDoubles m.placementFactors),
    (Factor.timing.key, .ofDouble m.timingFactor),
    (Factor.path.key, .ofDouble m.pathFactor),
    (Factor.snaking.key, .ofDouble m.snakingFactor),
    (Factor.timingExponent.key, .ofDouble m.timingExponent)]
  ofJson? value := do
    let standard : CostModel Double := .standard
    match ← value.record? (["num_parts", Factor.cutDelay.key, Factor.hyperedgeWeights.key,
      Factor.vertexWeights.key, Factor.placement.key, Factor.timing.key, Factor.path.key,
      Factor.snaking.key, Factor.timingExponent.key].map (⟨·, .defaulted⟩)) with
    | [numParts, cutDelay, hyperedgeFactors, vertexFactors, placementFactors, timingFactor,
        pathFactor, snakingFactor, timingExponent] =>
      return {
        numParts := ← Json.orDefault? standard.numParts Json.index? numParts
        cutDelay := ← Json.orDefault? standard.cutDelay Json.double? cutDelay
        hyperedgeFactors :=
          ← Json.orDefault? standard.hyperedgeFactors (Json.list? Json.double?) hyperedgeFactors
        vertexFactors :=
          ← Json.orDefault? standard.vertexFactors (Json.list? Json.double?) vertexFactors
        placementFactors :=
          ← Json.orDefault? standard.placementFactors (Json.list? Json.double?) placementFactors
        timingFactor := ← Json.orDefault? standard.timingFactor Json.double? timingFactor
        pathFactor := ← Json.orDefault? standard.pathFactor Json.double? pathFactor
        snakingFactor := ← Json.orDefault? standard.snakingFactor Json.double? snakingFactor
        timingExponent := ← Json.orDefault? standard.timingExponent Json.double? timingExponent }
    | _ => none

instance : JsonForm RefineLimits where
  toJson l := .ofFields [("max_moves", .ofNat l.maxMoves), ("refiner_iters", .ofNat l.maxPasses),
    ("check_consistency", .bool l.checkConsistency)]
  ofJson? value := do
    let standard := RefineLimits.standard
    match ← value.record? [⟨"max_moves", .defaulted⟩, ⟨"refiner_iters", .defaulted⟩,
      ⟨"check_consistency", .defaulted⟩] with
    | [maxMoves, maxPasses, checkConsistency] =>
      return ⟨← Json.orDefault? standard.maxMoves Json.index? maxMoves,
        ← Json.orDefault? standard.maxPasses Json.index? maxPasses,
        ← Json.orDefault? standard.checkConsistency Json.bool? checkConsistency⟩
    | _ => none

instance : JsonForm Config where
  toJson c := .ofFields [("evaluator", toJson c.evaluator), ("refiner", toJson c.refiner)]
  ofJson? value := do
    match ← value.record? [⟨"evaluator", .defaulted⟩, ⟨"refiner", .defaulted⟩] with
    | [evaluator, refiner] =>
      return ⟨← Json.orDefault? .standard ofJson? evaluator,
        ← Json.orDefault? .standard ofJson? refiner⟩
    | _ => none

end JsonForm

end CircuitPartition
