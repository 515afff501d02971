import CircuitPartition.Yaml.Lexer

/-!
The tree that the tokens of a YAML text describe. Anchors and aliases have names at first; numbering
them settles which node each alias stands for.
-/

namespace CircuitPartition.Yaml

inductive Node (ι : Type) where
  | alias (target : ι)
  | scalar (anchor : Option ι) (tag : Option Tag) (style : Style) (text : String)
  | sequence (anchor : Option ι) (items : List (Node ι))
  | mapping (anchor : Option ι) (entries : List (Node ι × Node ι))

def Node.blank {ι : Type} : Node ι :=
  .scalar none none .plain ""

abbrev Parser :=
  StateT (List Token) Option

namespace Parser

def peek : Parser (Option Token) :=
  return (← get).head?

def skip : Parser Unit :=
  modify List.tail

def nextIs (tokens : List Token) : Parser Bool :=
  return (← peek).any tokens.contains

def expect (token : Token) : Parser Unit := do
  if (← peek) == some token then skip else failure

abbrev Handles :=
  List (String × Tag)

def standardHandles : Handles :=
  [("!", "!".toUTF8.toList), ("!!", "tag:yaml.org,2002:".toUTF8.toList)]

def fullTag? (handles : Handles) (handle : String) (suffix : Tag) : Option Tag :=
  if handle = "" then some suffix else (handles.lookup handle).map (· ++ suffix)

def properties (handles : Handles) : Parser (Option String × Option Tag) := do
  match ← get with
  | .anchor name :: .tag handle suffix :: rest
  | .tag handle suffix :: .anchor name :: rest =>
    set rest
    return (some name, some (← fullTag? handles handle suffix))
  | .anchor name :: rest =>
    set rest
    return (some name, none)
  | .tag handle suffix :: rest =>
    set rest
    return (none, some (← fullTag? handles handle suffix))
  | _ => return (none, none)

inductive Place where
  | flow
  | block
  -- Here a sequence need not be indented.
  | blockMapping
  deriving DecidableEq

mutual

def node (handles : Handles) (place : Place) : (fuel : Nat) → Parser (Node String)
  -- The fuel bounds the depth of a node and the number of its parts, here and below.
  | 0 => failure
  | fuel + 1 => do
    if let some (.alias name) ← peek then
      skip
      return .alias name
    let (anchor, tag) ← properties handles
    match ← peek, place with
    | some .blockEntry, .blockMapping =>
      return .sequence anchor (← flatEntries handles fuel)
    | some (.scalar text style), _ =>
      skip
      return .scalar anchor tag style text
    | some .flowSequenceStart, _ =>
      skip
      return .sequence anchor (← flowItems handles true fuel)
    | some .flowMappingStart, _ =>
      skip
      return .mapping anchor (← flowEntries handles true fuel)
    | some .blockSequenceStart, .block | some .blockSequenceStart, .blockMapping =>
      skip
      return .sequence anchor (← blockItems handles fuel)
    | some .blockMappingStart, .block | some .blockMappingStart, .blockMapping =>
      skip
      return .mapping anchor (← blockEntries handles fuel)
    | _, _ =>
      if anchor.isSome || tag.isSome then return .scalar anchor tag .plain "" else failure

def blockItems (handles : Handles) : (fuel : Nat) → Parser (List (Node String))
  | 0 => failure
  | fuel + 1 => do
    if ← nextIs [.blockEnd] then
      skip
      return []
    expect .blockEntry
    let item ← nodeUnless handles .block [.blockEntry, .blockEnd] fuel
    return item :: (← blockItems handles fuel)

def flatEntries (handles : Handles) : (fuel : Nat) → Parser (List (Node String))
  | 0 => failure
  | fuel + 1 => do
    if ← nextIs [.blockEntry] then
      skip
      let item ← nodeUnless handles .block [.blockEntry, .key, .value, .blockEnd] fuel
      return item :: (← flatEntries handles fuel)
    else
      return []

def blockEntries (handles : Handles) : (fuel : Nat) → Parser (List (Node String × Node String))
  | 0 => failure
  | fuel + 1 => do
    if ← nextIs [.blockEnd] then
      skip
      return []
    expect .key
    let key ← nodeUnless handles .blockMapping [.key, .value, .blockEnd] fuel
    let value ← if ← nextIs [.value] then
        skip
        nodeUnless handles .blockMapping [.key, .value, .blockEnd] fuel
      else
        pure .blank
    return (key, value) :: (← blockEntries handles fuel)

def flowItems (handles : Handles) (first : Bool) : (fuel : Nat) → Parser (List (Node String))
  | 0 => failure
  | fuel + 1 => do
    if ← nextIs [.flowSequenceEnd] then
      skip
      return []
    if !first then
      expect .flowEntry
    if ← nextIs [.flowSequenceEnd] then
      skip
      return []
    let item ← if ← nextIs [.key] then
        skip
        pair handles fuel
      else
        node handles .flow fuel
    return item :: (← flowItems handles false fuel)

def pair (handles : Handles) : (fuel : Nat) → Parser (Node String)
  | 0 => failure
  | fuel + 1 => do
    -- Where the key is missing, one token is lost.
    let key ← if ← nextIs [.value, .flowEntry, .flowSequenceEnd] then
        skip
        pure .blank
      else
        node handles .flow fuel
    let value ← if ← nextIs [.value] then
        skip
        nodeUnless handles .flow [.flowEntry, .flowSequenceEnd] fuel
      else
        pure .blank
    return .mapping none [(key, value)]

def flowEntries (handles : Handles) (first : Bool) :
    (fuel : Nat) → Parser (List (Node String × Node String))
  | 0 => failure
  | fuel + 1 => do
    if ← nextIs [.flowMappingEnd] then
      skip
      return []
    if !first then
      expect .flowEntry
    if ← nextIs [.flowMappingEnd] then
      skip
      return []
    if ← nextIs [.key] then
      skip
      let key ← nodeUnless handles .flow [.value, .flowEntry, .flowMappingEnd] fuel
      let value ← if ← nextIs [.value] then
          skip
          nodeUnless handles .flow [.flowEntry, .flowMappingEnd] fuel
        else
          pure .blank
      return (key, value) :: (← flowEntries handles false fuel)
    else
      let key ← node handles .flow fuel
      return (key, .blank) :: (← flowEntries handles false fuel)

def nodeUnless (handles : Handles) (place : Place) (ends : List Token) :
    (fuel : Nat) → Parser (Node String)
  | 0 => failure
  | fuel + 1 => do
    if ← nextIs ends then
      return .blank
    node handles place fuel

end

def directives (versionSeen : Bool) (handles : Handles) : (fuel : Nat) → Parser Handles
  -- A version or handle may be given only once.
  | 0 => failure
  | fuel + 1 => do
    match ← peek with
    | some (.versionDirective major minor) =>
      if versionSeen || major != 1 || (minor != 1 && minor != 2) then
        failure
      skip
      directives true handles fuel
    | some (.tagDirective handle start) =>
      if (handles.lookup handle).isSome then
        failure
      skip
      directives versionSeen ((handle, start) :: handles) fuel
    | _ => return handles

def withStandard (handles : Handles) : Handles :=
  handles ++ standardHandles

def explicitDocument (fuel : Nat) : Parser (Node String) := do
  let handles ← directives false [] fuel
  expect .documentStart
  match ← peek with
  | none | some .documentStart | some .documentEnd | some (.versionDirective _ _)
  | some (.tagDirective _ _) => return .blank
  | some _ => node (withStandard handles) .block fuel

def skipEnds : (fuel : Nat) → Parser Unit
  | 0 => return
  | fuel + 1 => do
    if ← nextIs [.documentEnd] then
      skip
      skipEnds fuel

def onlyDocument : Parser (Node String) := do
  let fuel := 4 * (← get).length + 8
  let root ← match ← peek with
    | none => pure .blank
    | some .documentStart | some (.versionDirective _ _) | some (.tagDirective _ _) =>
      explicitDocument fuel
    | some _ => node standardHandles .block fuel
  skipEnds fuel
  if (← get).isEmpty then return root else failure

end Parser

abbrev Numbering :=
  List (String × Nat)

/--
An anchor is numbered by how many names are known before it. A name that is used again loses its
number to the later anchor, and may then share it with the next new name.
-/
def Numbering.define (names : Numbering) (name : String) : Numbering × Nat :=
  let number := names.length
  ((name, number) :: names.filter (·.1 != name), number)

namespace Node

def numberAnchor (anchor : Option String) : StateT Numbering Option (Option Nat) := do
  match anchor with
  | none => return none
  | some name =>
    let (names, number) := Numbering.define (← get) name
    set names
    return some number

mutual

def number : Node String → StateT Numbering Option (Node Nat)
  | .alias name => do
    match (← get).lookup name with
    | some number => return .alias number
    | none => failure
  | .scalar anchor tag style text => return .scalar (← numberAnchor anchor) tag style text
  | .sequence anchor items => do
    let anchor ← numberAnchor anchor
    return .sequence anchor (← numberItems items)
  | .mapping anchor entries => do
    let anchor ← numberAnchor anchor
    return .mapping anchor (← numberEntries entries)

def numberItems : List (Node String) → StateT Numbering Option (List (Node Nat))
  | [] => return []
  | item :: items => return (← number item) :: (← numberItems items)

def numberEntries :
    List (Node String × Node String) → StateT Numbering Option (List (Node Nat × Node Nat))
  | [] => return []
  | (key, value) :: entries =>
    return (← number key, ← number value) :: (← numberEntries entries)

end

mutual

def anchored (found : List (Nat × Node Nat)) : Node Nat → List (Nat × Node Nat)
  | .alias _ => found
  | .scalar anchor tag style text =>
    (anchor.toList.map (·, .scalar anchor tag style text)) ++ found
  | .sequence anchor items =>
    anchoredItems ((anchor.toList.map (·, .sequence anchor items)) ++ found) items
  | .mapping anchor entries =>
    anchoredEntries ((anchor.toList.map (·, .mapping anchor entries)) ++ found) entries

def anchoredItems (found : List (Nat × Node Nat)) : List (Node Nat) → List (Nat × Node Nat)
  | [] => found
  | item :: items => anchoredItems (anchored found item) items

def anchoredEntries (found : List (Nat × Node Nat)) :
    List (Node Nat × Node Nat) → List (Nat × Node Nat)
  | [] => found
  | (key, value) :: entries => anchoredEntries (anchored (anchored found key) value) entries

end

end Node

structure Document where
  root : Node Nat
  anchors : List (Nat × Node Nat)

namespace Document

def parse? (text : String) : Option Document := do
  let (root, _) ← Parser.onlyDocument.run (← tokens? text)
  let (root, _) ← (Node.number root).run []
  return ⟨root, root.anchored []⟩

def resolve? (d : Document) : Node Nat → Option (Node Nat)
  | .alias target => d.anchors.lookup target
  | node => some node

end Document

end CircuitPartition.Yaml
