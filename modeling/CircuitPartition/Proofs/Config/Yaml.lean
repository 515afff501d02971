import CircuitPartition.Config.Yaml
import CircuitPartition.Proofs.Yaml.Value
import Mathlib.Data.Finset.Basic

/-!
Configurations survive being written and read, and each setting that is left out of a text falls
back to its own standard value, whatever else is left out.
-/

namespace CircuitPartition.Config

open Yaml (Contents Entry Part Document wordNode textOfOutline field?)

def ReadsBack (x : Double) : Prop :=
  Yaml.double? (yamlLayout.render x).toList = some x

instance (x : Double) : Decidable (ReadsBack x) :=
  inferInstanceAs (Decidable (_ = some x))

inductive Setting where
  | numParts
  | factor (factor : Factor)
  | maxMoves
  | maxPasses
  | checkConsistency
  deriving DecidableEq

namespace Setting

def key : Setting → String
  | .numParts => "num_parts"
  | .factor which => which.key
  | .maxMoves => "max_moves"
  | .maxPasses => "refiner_iters"
  | .checkConsistency => "check_consistency"

def ofEvaluator : List Setting :=
  [numParts, factor .cutDelay, factor .hyperedgeWeights, factor .vertexWeights, factor .placement,
    factor .timing, factor .path, factor .snaking, factor .timingExponent]

def ofRefiner : List Setting :=
  [maxMoves, maxPasses, checkConsistency]

end Setting

def settingLines (config : Config) : Setting → String
  | .numParts => entryLine "num_parts" (toString config.evaluator.numParts)
  | .factor .cutDelay => numberLine .cutDelay config.evaluator.cutDelay
  | .factor .hyperedgeWeights => listLines .hyperedgeWeights config.evaluator.hyperedgeFactors
  | .factor .vertexWeights => listLines .vertexWeights config.evaluator.vertexFactors
  | .factor .placement => listLines .placement config.evaluator.placementFactors
  | .factor .timing => numberLine .timing config.evaluator.timingFactor
  | .factor .path => numberLine .path config.evaluator.pathFactor
  | .factor .snaking => numberLine .snaking config.evaluator.snakingFactor
  | .factor .timingExponent => numberLine .timingExponent config.evaluator.timingExponent
  | .maxMoves => entryLine "max_moves" (toString config.refiner.maxMoves)
  | .maxPasses => entryLine "refiner_iters" (toString config.refiner.maxPasses)
  | .checkConsistency =>
    entryLine "check_consistency" (if config.refiner.checkConsistency then "true" else "false")

def toYamlWithout (omitted : Finset Setting) (config : Config) : String :=
  "evaluator:\n"
    ++ String.join ((Setting.ofEvaluator.filter (· ∉ omitted)).map config.settingLines)
    ++ "refiner:\n"
    ++ String.join ((Setting.ofRefiner.filter (· ∉ omitted)).map config.settingLines)

theorem toYamlWithout_empty (config : Config) : config.toYamlWithout ∅ = config.toYaml := by
  have hfilter (settings : List Setting) :
      settings.filter (· ∉ (∅ : Finset Setting)) = settings :=
    List.filter_eq_self.mpr (by simp)
  unfold toYamlWithout toYaml
  rw [hfilter, hfilter, Setting.ofEvaluator, Setting.ofRefiner]
  simp only [List.map_cons, List.map_nil, String.join_cons, String.join_nil, settingLines,
    String.append_assoc, String.append_empty]

def valueOr {β : Type} (omitted : Finset Setting) (setting : Setting) (value standard : β) : β :=
  if setting ∈ omitted then standard else value

def reset (omitted : Finset Setting) (config : Config) : Config where
  evaluator :=
    let model := config.evaluator
    let standard : CostModel Double := .standard
    let factor {β : Type} (factor : Factor) (value standard : β) : β :=
      valueOr omitted (.factor factor) value standard
    { numParts := valueOr omitted .numParts model.numParts standard.numParts
      cutDelay := factor .cutDelay model.cutDelay standard.cutDelay
      hyperedgeFactors := factor .hyperedgeWeights model.hyperedgeFactors standard.hyperedgeFactors
      vertexFactors := factor .vertexWeights model.vertexFactors standard.vertexFactors
      placementFactors := factor .placement model.placementFactors standard.placementFactors
      timingFactor := factor .timing model.timingFactor standard.timingFactor
      pathFactor := factor .path model.pathFactor standard.pathFactor
      snakingFactor := factor .snaking model.snakingFactor standard.snakingFactor
      timingExponent := factor .timingExponent model.timingExponent standard.timingExponent }
  refiner :=
    let limits := config.refiner
    let standard := RefineLimits.standard
    { maxMoves := valueOr omitted .maxMoves limits.maxMoves standard.maxMoves
      maxPasses := valueOr omitted .maxPasses limits.maxPasses standard.maxPasses
      checkConsistency :=
        valueOr omitted .checkConsistency limits.checkConsistency standard.checkConsistency }

structure Writable (config : Config) : Prop where
  numParts : config.evaluator.numParts < Word.count 64
  maxMoves : config.refiner.maxMoves < Word.count 64
  maxPasses : config.refiner.maxPasses < Word.count 64
  readsBack : ∀ factor, ∀ x ∈ config.evaluator.values factor, ReadsBack x

/-! ### The outline of a configuration -/

def contents (config : Config) : Setting → Contents
  | .numParts => .word (toString config.evaluator.numParts)
  | .factor .cutDelay => .word (yamlLayout.render config.evaluator.cutDelay)
  | .factor .hyperedgeWeights => .items (config.evaluator.hyperedgeFactors.map yamlLayout.render)
  | .factor .vertexWeights => .items (config.evaluator.vertexFactors.map yamlLayout.render)
  | .factor .placement => .items (config.evaluator.placementFactors.map yamlLayout.render)
  | .factor .timing => .word (yamlLayout.render config.evaluator.timingFactor)
  | .factor .path => .word (yamlLayout.render config.evaluator.pathFactor)
  | .factor .snaking => .word (yamlLayout.render config.evaluator.snakingFactor)
  | .factor .timingExponent => .word (yamlLayout.render config.evaluator.timingExponent)
  | .maxMoves => .word (toString config.refiner.maxMoves)
  | .maxPasses => .word (toString config.refiner.maxPasses)
  | .checkConsistency => .word (if config.refiner.checkConsistency then "true" else "false")

def entry (config : Config) (setting : Setting) : Entry :=
  ⟨setting.key, config.contents setting⟩

def part (omitted : Finset Setting) (config : Config) (name : String) (settings : List Setting) :
    Part :=
  ⟨name, (settings.filter (· ∉ omitted)).map config.entry⟩

def outline (omitted : Finset Setting) (config : Config) : List Part :=
  [part omitted config "evaluator" Setting.ofEvaluator,
    part omitted config "refiner" Setting.ofRefiner]

open Yaml.Line (written written_append)

theorem join_written {β : Type} (lines : β → List Yaml.Line) (items : List β) :
    String.join (items.map fun item => String.ofList (written (lines item)))
      = String.ofList (written (items.flatMap lines)) := by
  induction items with
  | nil => rfl
  | cons item items ih =>
    rw [List.map_cons, String.join_cons, ih, List.flatMap_cons, written_append,
      String.ofList_append]

theorem entryLine_eq (key text : String) :
    entryLine key text = String.ofList (written ((Contents.word text).lines key)) := by
  rw [← String.toList_inj]
  simp [entryLine, written, Contents.lines]

theorem listLines_eq (factor : Factor) (xs : List Double) :
    listLines factor xs
      = String.ofList (written ((Contents.items (xs.map yamlLayout.render)).lines factor.key)) := by
  cases xs with
  | nil =>
    rw [← String.toList_inj]
    simp [listLines, entryLine, written, Contents.lines]
  | cons x xs =>
    have hitem (x : Double) : listLines.itemLine x
        = String.ofList (written [Contents.itemLine (yamlLayout.render x)]) := by
      rw [← String.toList_inj]
      simp [listLines.itemLine, written, Contents.itemLine]
    have hitems := join_written (fun x => [Contents.itemLine (yamlLayout.render x)]) (x :: xs)
    rw [← List.map_eq_flatMap] at hitems
    have hlines : (Contents.items ((x :: xs).map yamlLayout.render)).lines factor.key
        = [⟨2, factor.key.toList ++ [':']⟩]
          ++ (x :: xs).map fun x => Contents.itemLine (yamlLayout.render x) := by
      simp [Contents.lines]
    rw [hlines, written_append, String.ofList_append, ← hitems, listLines,
      funext hitem]
    . congr 1
      rw [← String.toList_inj]
      simp [written]
    . simp

theorem settingLines_eq (config : Config) (setting : Setting) :
    config.settingLines setting = String.ofList (written (config.entry setting).lines) := by
  cases setting with
  | factor factor =>
    cases factor <;> first | exact entryLine_eq _ _ | exact listLines_eq _ _
  | _ => exact entryLine_eq _ _

theorem part_eq (omitted : Finset Setting) (config : Config) (name : String)
    (settings : List Setting) :
    name ++ ":\n" ++ String.join ((settings.filter (· ∉ omitted)).map config.settingLines)
      = String.ofList (written (part omitted config name settings).lines) := by
  have hjoin := join_written Entry.lines ((settings.filter (· ∉ omitted)).map config.entry)
  rw [List.map_map] at hjoin
  rw [funext config.settingLines_eq, ← String.toList_inj, String.toList_append]
  unfold Function.comp at hjoin
  rw [hjoin]
  simp [Part.lines, part, written]

theorem toYamlWithout_eq (omitted : Finset Setting) (config : Config) :
    config.toYamlWithout omitted = textOfOutline (config.outline omitted) := by
  have hevaluator := part_eq omitted config "evaluator" Setting.ofEvaluator
  have hrefiner := part_eq omitted config "refiner" Setting.ofRefiner
  unfold toYamlWithout textOfOutline outline
  rw [List.flatMap_cons, List.flatMap_singleton, written_append, String.ofList_append,
    ← hevaluator, ← hrefiner, show "evaluator:\n" = "evaluator" ++ ":\n" by decide,
    show "refiner:\n" = "refiner" ++ ":\n" by decide]
  simp only [String.append_assoc]

/-! ### Reading -/

section

variable {config : Config}

theorem keyWord_key (setting : Setting) : Yaml.KeyWord setting.key.toList := by
  cases setting with
  | factor factor =>
    cases factor <;> exact ⟨Yaml.word_of_all (by decide) (by decide) rfl, by decide, fun _ => rfl⟩
  | _ => exact ⟨Yaml.word_of_all (by decide) (by decide) rfl, by decide, fun _ => rfl⟩

theorem words_contents (h : config.Writable) (setting : Setting) :
    (config.contents setting).Words := by
  have hword (x : Double) (hx : ReadsBack x) : Yaml.Word (yamlLayout.render x).toList :=
    Yaml.word_of_double? hx
  have hwords (xs : List Double) (hxs : ∀ x ∈ xs, ReadsBack x) :
      (Contents.items (xs.map yamlLayout.render)).Words :=
    List.forall_mem_map.mpr fun x hx => hword x (hxs x hx)
  cases setting with
  | numParts => exact Yaml.word_toString _
  | factor factor =>
    have hreads := h.readsBack factor
    cases factor
    case hyperedgeWeights => exact hwords _ hreads
    case vertexWeights => exact hwords _ hreads
    case placement => exact hwords _ hreads
    all_goals exact hword _ (hreads _ List.mem_cons_self)
  | maxMoves => exact Yaml.word_toString _
  | maxPasses => exact Yaml.word_toString _
  | checkConsistency => exact Yaml.word_bool _

theorem wellFormed_outline (h : config.Writable) (omitted : Finset Setting) :
    ∀ part ∈ config.outline omitted, part.WellFormed := by
  have hpart (name : String) (settings : List Setting) (hname : Yaml.KeyWord name.toList) :
      (part omitted config name settings).WellFormed := by
    refine ⟨hname, ?_⟩
    rw [part, List.forall_mem_map]
    exact fun setting _ => ⟨keyWord_key setting, words_contents h setting⟩
  rw [outline, List.forall_mem_cons, List.forall_mem_singleton]
  constructor
  . refine hpart "evaluator" _ ⟨?_, by decide, fun _ => rfl⟩
    exact Yaml.word_of_all (by decide) (by decide) rfl
  . refine hpart "refiner" _ ⟨?_, by decide, fun _ => rfl⟩
    exact Yaml.word_of_all (by decide) (by decide) rfl

def entries (omitted : Finset Setting) (config : Config) (settings : List Setting) :
    List (String × Yaml.Node Nat) :=
  (settings.filter (· ∉ omitted)).map fun setting => (setting.key, (config.contents setting).node)

theorem entries?_part (omitted : Finset Setting) (config : Config) (name : String)
    (settings : List Setting) (d : Document) :
    d.entries? (part omitted config name settings).node.2
      = some (entries omitted config settings) := by
  rw [Part.node, Document.entries?_nodeOfEntries, part, List.map_map]
  rfl

theorem field?_entries {β : Type} {read : Yaml.Node Nat → Option β} {settings : List Setting}
    (hnodup : (settings.map Setting.key).Nodup) (setting : Setting) (hmem : setting ∈ settings)
    (omitted : Finset Setting) {value : β}
    (hread : read (config.contents setting).node = some value) (standard : β) :
    field? (entries omitted config settings) setting.key standard read
      = some (valueOr omitted setting value standard) := by
  have hkeys : (entries omitted config settings).map (·.1)
      = (settings.filter (· ∉ omitted)).map Setting.key := by
    rw [entries, List.map_map]
    rfl
  unfold valueOr
  split
  . next homitted =>
    apply Yaml.field?_of_not_mem
    rw [hkeys]
    intro hkey
    obtain ⟨other, hother, heq⟩ := List.mem_map.mp hkey
    obtain ⟨hother, hkept⟩ := List.mem_filter.mp hother
    rw [List.inj_on_of_nodup_map hnodup hother hmem heq] at hkept
    exact absurd homitted (of_decide_eq_true hkept)
  . next hkept =>
    have hentry : (setting.key, (config.contents setting).node) ∈ entries omitted config settings :=
      List.mem_map.mpr ⟨setting, List.mem_filter.mpr ⟨hmem, by simpa using hkept⟩, rfl⟩
    rw [Yaml.field?_of_mem ?_ hentry, hread]
    rw [hkeys]
    exact hnodup.sublist (List.filter_sublist.map Setting.key)

theorem readLimits?_part (h : config.Writable) (omitted : Finset Setting) (d : Document) :
    readLimits? d (part omitted config "refiner" Setting.ofRefiner).node.2
      = some (config.reset omitted).refiner := by
  have hnodup : (Setting.ofRefiner.map Setting.key).Nodup := by decide
  have hmoves : field? (entries omitted config Setting.ofRefiner) "max_moves"
      RefineLimits.standard.maxMoves (d.nat? (Word.count 64)) = some _ :=
    field?_entries hnodup .maxMoves (by decide) omitted
      (Yaml.nat?_toString h.maxMoves) _
  have hpasses : field? (entries omitted config Setting.ofRefiner) "refiner_iters"
      RefineLimits.standard.maxPasses (d.nat? (Word.count 64)) = some _ :=
    field?_entries hnodup .maxPasses (by decide) omitted
      (Yaml.nat?_toString h.maxPasses) _
  have hcheck : field? (entries omitted config Setting.ofRefiner) "check_consistency"
      RefineLimits.standard.checkConsistency d.bool? = some _ :=
    field?_entries hnodup .checkConsistency (by decide) omitted
      (Yaml.bool?_bool config.refiner.checkConsistency) _
  unfold readLimits?
  rw [entries?_part]
  simp only [Option.bind_eq_bind, Option.bind_some, hmoves, hpasses, hcheck]
  rfl

theorem readModel?_part (h : config.Writable) (omitted : Finset Setting) (d : Document) :
    readModel? d (part omitted config "evaluator" Setting.ofEvaluator).node.2
      = some (config.reset omitted).evaluator := by
  have hnodup : (Setting.ofEvaluator.map Setting.key).Nodup := by decide
  have hparts : field? (entries omitted config Setting.ofEvaluator) "num_parts"
      (CostModel.standard : CostModel Double).numParts (d.nat? (Word.count 64)) = some _ :=
    field?_entries hnodup .numParts (by decide) omitted
      (Yaml.nat?_toString h.numParts) _
  have hnumber (factor : Factor) {x : Double}
      (hcontents : config.contents (.factor factor) = .word (yamlLayout.render x))
      (hx : x ∈ config.evaluator.values factor) (standard : Double) :
      field? (entries omitted config Setting.ofEvaluator) factor.key standard d.double?
        = some (valueOr omitted (.factor factor) x standard) := by
    refine field?_entries hnodup (.factor factor) (by cases factor <;> decide) omitted ?_ standard
    rw [hcontents]
    exact h.readsBack factor x hx
  have hnumbers (factor : Factor)
      (hcontents : config.contents (.factor factor)
        = .items ((config.evaluator.values factor).map yamlLayout.render))
      (standard : List Double) :
      field? (entries omitted config Setting.ofEvaluator) factor.key standard (d.list? d.double?)
        = some (valueOr omitted (.factor factor) (config.evaluator.values factor) standard) := by
    refine field?_entries hnodup (.factor factor) (by cases factor <;> decide) omitted ?_ standard
    rw [hcontents]
    exact d.list?_wordNodes fun x hx => h.readsBack factor x hx
  unfold readModel?
  rw [entries?_part]
  simp only [Option.bind_eq_bind, Option.bind_some, hparts,
    hnumber .cutDelay rfl List.mem_cons_self, hnumber .timing rfl List.mem_cons_self,
    hnumber .path rfl List.mem_cons_self, hnumber .snaking rfl List.mem_cons_self,
    hnumber .timingExponent rfl List.mem_cons_self, hnumbers .hyperedgeWeights rfl,
    hnumbers .vertexWeights rfl, hnumbers .placement rfl]
  rfl

theorem read?_toYamlWithout (h : config.Writable) (omitted : Finset Setting) :
    read? (config.toYamlWithout omitted) = some (config.reset omitted) := by
  have hroot (d : Document) : d.entries? (Yaml.nodeOfOutline (config.outline omitted))
      = some [("evaluator", (part omitted config "evaluator" Setting.ofEvaluator).node.2),
        ("refiner", (part omitted config "refiner" Setting.ofRefiner).node.2)] :=
    d.entries?_mapping Part.name (·.node.2) (config.outline omitted)
  have hparse := Document.parse?_textOfOutline (List.cons_ne_nil _ _)
    (wellFormed_outline h omitted)
  unfold read?
  rw [toYamlWithout_eq, outline, hparse, ← outline]
  simp only [Option.bind_eq_bind, Option.bind_some, hroot]
  have hevaluator (default : CostModel Double) (d : Document) (first second : Yaml.Node Nat) :
      field? [("evaluator", first), ("refiner", second)] "evaluator" default (readModel? d)
        = readModel? d first := rfl
  have hrefiner (default : RefineLimits) (d : Document) (first second : Yaml.Node Nat) :
      field? [("evaluator", first), ("refiner", second)] "refiner" default (readLimits? d)
        = readLimits? d second := rfl
  rw [hevaluator, hrefiner, readModel?_part h, readLimits?_part h]
  rfl

end

/-! ### Checking -/

theorem validate_eq_ok {model : CostModel Double} : model.validate = .ok () ↔
    2 ≤ model.numParts ∧ ∀ factor, ∀ x ∈ model.values factor, x.isFinite = true := by
  have hfinite : (CostModel.factorOrder.find? fun factor =>
        !(model.values factor).all Scalar.isFinite) = none
      ↔ ∀ factor, ∀ x ∈ model.values factor, x.isFinite = true := by
    rw [List.find?_eq_none]
    constructor
    . intro h factor
      have hfactor := h factor (by cases factor <;> decide)
      rw [Bool.not_eq_true, Bool.not_eq_false', List.all_eq_true] at hfactor
      exact hfactor
    . intro h factor _
      rw [Bool.not_eq_true, Bool.not_eq_false', List.all_eq_true]
      exact h factor
  rw [← hfinite]
  unfold CostModel.validate
  split
  . next hfew => simp [Nat.not_le.mpr hfew]
  . next hparts =>
    rw [and_iff_right (Nat.not_lt.mp hparts)]
    split
    . next hsome => simp [hsome]
    . next hnone => simp [hnone]

theorem values_reset (config : Config) (omitted : Finset Setting) (factor : Factor) :
    (config.reset omitted).evaluator.values factor
      = valueOr omitted (.factor factor) (config.evaluator.values factor)
        (CostModel.standard.values factor) := by
  unfold reset valueOr CostModel.values
  cases factor <;> dsimp only <;> split <;> rfl

theorem validate_reset {config : Config} (h : config.validate = .ok ()) (omitted : Finset Setting) :
    (config.reset omitted).validate = .ok () := by
  have hstandard : (CostModel.standard : CostModel Double).validate = .ok () := by
    decide +kernel
  unfold validate at *
  rw [validate_eq_ok] at *
  constructor
  . unfold reset valueOr
    dsimp only
    split
    . exact hstandard.left
    . exact h.left
  . intro factor
    rw [values_reset]
    unfold valueOr
    split
    . exact hstandard.right factor
    . exact h.right factor

theorem ofYaml_toYaml {config : Config} (hvalid : config.validate = .ok ())
    (h : config.Writable) :
    ofYaml config.toYaml = .ok config ∧ config.toYaml = config.toYamlWithout ∅ ∧
      ∀ omitted, ofYaml (config.toYamlWithout omitted) = .ok (config.reset omitted) := by
  have hread (omitted : Finset Setting) :
      ofYaml (config.toYamlWithout omitted) = .ok (config.reset omitted) := by
    unfold ofYaml
    rw [read?_toYamlWithout h]
    dsimp only
    rw [validate_reset hvalid]
    rfl
  refine ⟨?_, (toYamlWithout_empty config).symm, hread⟩
  rw [← toYamlWithout_empty, hread]
  rfl

def assorted : Config where
  evaluator := { CostModel.standard with
    numParts := 3
    cutDelay := -0.0
    hyperedgeFactors := [0.1, ⟨1⟩, 1e300]
    vertexFactors := []
    snakingFactor := -2.5 }
  refiner := ⟨18446744073709551615, 0, false⟩

theorem ofYaml_toYaml_assorted :
    assorted.validate = .ok () ∧ assorted.Writable ∧ ofYaml assorted.toYaml = .ok assorted ∧
      assorted.toYaml = assorted.toYamlWithout ∅ ∧
      ∀ omitted, ofYaml (assorted.toYamlWithout omitted) = .ok (assorted.reset omitted) := by
  have hvalid : assorted.validate = .ok () := by
    decide +kernel
  have hwritable : assorted.Writable := {
    numParts := by decide
    maxMoves := by decide
    maxPasses := by decide
    readsBack := by
      intro factor
      cases factor <;> decide +kernel
  }
  exact ⟨hvalid, hwritable, ofYaml_toYaml hvalid hwritable⟩

end CircuitPartition.Config
