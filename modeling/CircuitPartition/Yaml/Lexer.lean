import CircuitPartition.Yaml.Tag
import CircuitPartition.Yaml.Text

/-!
Splitting a YAML text into tokens. Indentation becomes tokens of its own. Whatever could be a key is
remembered as a candidate, and becomes one when the colon behind it is found.
-/

namespace CircuitPartition.Yaml

structure Candidate where
  token : Nat
  required : Bool
  position : Position

structure Lexer where
  cursor : Cursor
  tokens : Array Token
  indents : List Nat
  keyAllowed : Bool
  candidate : Option Candidate
  outside : List (Option Candidate)

namespace Lexer

def start (text : List Char) : Lexer where
  cursor := ⟨.start, text⟩
  tokens := #[]
  indents := []
  keyAllowed := true
  candidate := none
  outside := []

def inFlow (l : Lexer) : Bool :=
  !l.outside.isEmpty

def column (l : Lexer) : Nat :=
  l.cursor.position.column

def innerColumn (l : Lexer) : Nat :=
  match l.indents with
  | [] => 0
  | column :: _ => column + 1

def emit (l : Lexer) (token : Token) : Lexer :=
  { l with tokens := l.tokens.push token }

def skip (l : Lexer) (n : Nat) : Lexer :=
  { l with cursor := l.cursor.skip n }

/--
Passes blanks, comments and line breaks. Outside brackets a new line may begin with a key, and a tab
must not stand where a key may begin. A line may begin with a byte order mark, which takes up a
column.
-/
def skipBlanks (l : Lexer) : Lexer :=
  go l.keyAllowed false l.cursor.position l.cursor.rest
where
  go (keyAllowed inComment : Bool) (p : Position) : List Char → Lexer
    | [] => { l with keyAllowed, cursor := ⟨p, []⟩ }
    | c :: rest =>
      if isBreak c then
        go (keyAllowed || !l.inFlow) false p.nextLine rest
      else if inComment || c == ' ' || (c == '\t' && (l.inFlow || !keyAllowed)) then
        go keyAllowed inComment (p.next c) rest
      else if c == '\ufeff' && p.column == 0 then
        go keyAllowed inComment (p.next c) rest
      else if c == '#' then
        go keyAllowed true (p.next c) rest
      else
        { l with keyAllowed, cursor := ⟨p, c :: rest⟩ }

def giveUp? : Option Candidate → Option (Option Candidate)
  | some candidate => if candidate.required then none else some none
  | none => some none

def expire? (p : Position) : Option Candidate → Option (Option Candidate)
  | some candidate =>
    if candidate.position.line < p.line ∨ candidate.position.offset + 1024 < p.offset then
      giveUp? (some candidate)
    else
      some (some candidate)
  | none => some none

def expireCandidates? (l : Lexer) : Option Lexer := do
  let candidate ← expire? l.cursor.position l.candidate
  let outside ← l.outside.mapM (expire? l.cursor.position)
  return { l with candidate, outside }

def giveUpCandidate? (l : Lexer) : Option Lexer := do
  return { l with candidate := ← giveUp? l.candidate }

def saveCandidate? (l : Lexer) : Option Lexer :=
  if l.keyAllowed then do
    let l ← l.giveUpCandidate?
    return { l with candidate := some {
      token := l.tokens.size
      required := !l.inFlow && l.indents.head? == some l.column
      position := l.cursor.position } }
  else
    some l

def unroll (l : Lexer) (column : Nat) : Lexer :=
  if l.inFlow then
    l
  else
    let closed := l.indents.takeWhile (column < ·)
    { l with
      indents := l.indents.drop closed.length
      tokens := l.tokens ++ Array.replicate closed.length Token.blockEnd }

def unrollAll (l : Lexer) : Lexer :=
  if l.inFlow then
    l
  else
    { l with
      indents := []
      tokens := l.tokens ++ Array.replicate l.indents.length Token.blockEnd }

def roll (l : Lexer) (column index : Nat) (token : Token) : Lexer :=
  if !l.inFlow && l.indents.head?.all (· < column) then
    { l with
      indents := column :: l.indents
      tokens := l.tokens.insertIdxIfInBounds index token }
  else
    l

def atDocumentLevel? (l : Lexer) (token : Token) : Option Lexer := do
  let l ← l.unrollAll.giveUpCandidate?
  return { l with keyAllowed := false }.emit token

def documentMark? (l : Lexer) (token : Token) : Option Lexer := do
  return (← l.atDocumentLevel? token).skip 3

def directive? (l : Lexer) : Option Lexer := do
  -- A directive takes the line break behind it along, so that no key may begin there.
  let line := (l.cursor.rest.drop 1).takeWhile (!isBreak ·)
  let l ← l.atDocumentLevel? (← scanDirective? line)
  return { l with cursor := l.cursor.skipLine }

def openFlow? (l : Lexer) (token : Token) : Option Lexer := do
  let l ← l.saveCandidate?
  let l := { l with outside := l.candidate :: l.outside, candidate := none, keyAllowed := true }
  return l.emit token |>.skip 1

def closeFlow? (l : Lexer) (token : Token) : Option Lexer := do
  let l ← l.giveUpCandidate?
  let l := match l.outside with
    | candidate :: outside => { l with candidate, outside }
    | [] => l
  return { l with keyAllowed := false }.emit token |>.skip 1

def flowEntry? (l : Lexer) : Option Lexer := do
  let l ← l.giveUpCandidate?
  return { l with keyAllowed := true }.emit .flowEntry |>.skip 1

def blockEntry? (l : Lexer) : Option Lexer := do
  if !l.inFlow && !l.keyAllowed then
    none
  let l ← (l.roll l.column l.tokens.size .blockSequenceStart).giveUpCandidate?
  return { l with keyAllowed := true }.emit .blockEntry |>.skip 1

def explicitKey? (l : Lexer) : Option Lexer := do
  if !l.inFlow && !l.keyAllowed then
    none
  let l ← (l.roll l.column l.tokens.size .blockMappingStart).giveUpCandidate?
  return { l with keyAllowed := !l.inFlow }.emit .key |>.skip 1

def value? (l : Lexer) : Option Lexer :=
  match l.candidate with
  | some candidate =>
    let l := { l with tokens := l.tokens.insertIdxIfInBounds candidate.token .key }
    let l := l.roll candidate.position.column candidate.token .blockMappingStart
    some ({ l with candidate := none, keyAllowed := false }.emit .value |>.skip 1)
  | none =>
    if !l.inFlow && !l.keyAllowed then
      none
    else
      let l := l.roll l.column l.tokens.size .blockMappingStart
      some ({ l with keyAllowed := !l.inFlow }.emit .value |>.skip 1)

def name? (l : Lexer) (token : String → Token) : Option Lexer := do
  let l ← l.saveCandidate?
  let text := l.cursor.rest.drop 1
  let name := text.takeWhile isWordChar
  let rest := text.dropWhile isWordChar
  let ends := startsBlank rest || rest.head?.any fun c =>
    ['?', ':', ',', ']', '\x7d', '%', '@', '\x60'].contains c
  if name.isEmpty || !ends then
    none
  return { l with keyAllowed := false }.emit (token (String.ofList name)) |>.skip (1 + name.length)

def tag? (l : Lexer) : Option Lexer := do
  let l ← l.saveCandidate?
  let (token, rest) ← scanTag? (l.cursor.rest.drop 1)
  if !endsTag l.inFlow rest then
    none
  let l := { l with keyAllowed := false }.emit token
  return l.skip (l.cursor.rest.length - rest.length)

def scalar? (l : Lexer) (style : Style) (scan : Lexer → Option ScannedText) : Option Lexer := do
  let l ← l.saveCandidate?
  let scanned ← scan l
  return { l with keyAllowed := scanned.brokeLine, cursor := scanned.cursor }.emit
    (.scalar (String.ofList scanned.text) style)

def plain? (l : Lexer) : Option Lexer :=
  l.scalar? .plain fun l =>
    scanPlain l.inFlow l.innerColumn [] Gap.none l.cursor.position l.cursor.rest

def singleQuoted? (l : Lexer) : Option Lexer :=
  l.scalar? .singleQuoted fun l =>
    scanSingleQuoted [] Gap.none (l.cursor.skip 1).position (l.cursor.skip 1).rest

def doubleQuoted? (l : Lexer) : Option Lexer :=
  l.scalar? .doubleQuoted fun l =>
    scanDoubleQuoted .text [] Gap.none (l.cursor.skip 1).position (l.cursor.skip 1).rest

def block? (l : Lexer) (folded : Bool) : Option Lexer := do
  let l ← l.giveUpCandidate?
  let (header, rest) ← BlockHeader.read? (l.cursor.rest.drop 1)
  let line := rest.takeWhile (!isBreak ·)
  if !isLineEnd line then
    none
  let below := l.cursor.skipLine
  let indent := header.increment.map fun n => l.indents.head?.getD 0 + n
  let scanned ← scanBlock folded header.chomping (max l.innerColumn 1) indent false .empty
    below.position below.rest
  return { l with keyAllowed := true, cursor := scanned.cursor }.emit
    (.scalar (String.ofList scanned.text) (if folded then .folded else .literal))

def isIndicator (c : Char) : Bool :=
  isFlowIndicator c
    || ['-', '?', ':', '#', '&', '*', '!', '|', '>', '\'', '"', '%', '@', '\x60'].contains c

def beginsPlain (l : Lexer) (c : Char) (rest : List Char) : Bool :=
  !(startsBlank (c :: rest) || isIndicator c)
    || (c == '-' && !rest.head?.any isBlank)
    || (!l.inFlow && (c == '?' || c == ':') && !startsBlank rest)

def token? (l : Lexer) (c : Char) (rest : List Char) : Option Lexer :=
  let separate := startsBlank rest
  if l.column == 0 && c == '%' then
    l.directive?
  else if l.column == 0 && isDocumentMark (c :: rest) then
    l.documentMark? (if c == '-' then .documentStart else .documentEnd)
  else
    match c with
    | '[' => l.openFlow? .flowSequenceStart
    | '\x7b' => l.openFlow? .flowMappingStart
    | ']' => l.closeFlow? .flowSequenceEnd
    | '\x7d' => l.closeFlow? .flowMappingEnd
    | ',' => l.flowEntry?
    | '*' => l.name? .alias
    | '&' => l.name? .anchor
    | '!' => l.tag?
    | '\'' => l.singleQuoted?
    | '"' => l.doubleQuoted?
    | c =>
      if c == '-' && separate then l.blockEntry?
      else if c == '?' && (l.inFlow || separate) then l.explicitKey?
      else if c == ':' && (l.inFlow || separate) then l.value?
      else if (c == '|' || c == '>') && !l.inFlow then l.block? (c == '>')
      else if l.beginsPlain c rest then l.plain?
      else none

def run? : (fuel : Nat) → Lexer → Option Lexer
  -- The fuel bounds the number of tokens.
  | 0, _ => none
  | fuel + 1, l => do
    let l ← l.skipBlanks.expireCandidates?
    match l.cursor.rest with
    | [] => l.unrollAll.giveUpCandidate?
    | c :: rest => run? fuel (← (l.unroll l.column).token? c rest)

end Lexer

def tokens? (text : String) : Option (List Token) := do
  if !text.toList.all isPrintable then
    none
  let text := normalizeBreaks text.toList
  return (← (Lexer.start text).run? (text.length + 1)).tokens.toList

end CircuitPartition.Yaml
