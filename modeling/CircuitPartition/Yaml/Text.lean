import CircuitPartition.Bytes
import CircuitPartition.Yaml.Token

/-!
The texts of scalars: plain, quoted, and in blocks.
-/

namespace CircuitPartition.Yaml

structure Gap where
  blanks : List Char
  breaks : List Char
  -- The gap began with an escaped line break, which leaves no trace.
  escaped : Bool

namespace Gap

def none : Gap :=
  ⟨[], [], false⟩

def isNone (gap : Gap) : Bool :=
  gap.blanks.isEmpty && gap.breaks.isEmpty && !gap.escaped

def breaksLine (gap : Gap) : Bool :=
  !gap.breaks.isEmpty || gap.escaped

def addBlank (gap : Gap) (c : Char) : Gap :=
  if gap.breaksLine then gap else { gap with blanks := c :: gap.blanks }

def addBreak (gap : Gap) (c : Char) : Gap :=
  { gap with blanks := [], breaks := c :: gap.breaks }

def text (gap : Gap) : List Char :=
  -- A single line feed turns into a blank; of several the first one is dropped.
  if gap.escaped then
    gap.breaks.reverse
  else
    match gap.breaks.reverse with
    | [] => gap.blanks.reverse
    | ['\n'] => [' ']
    | '\n' :: more => more
    | breaks => breaks

end Gap

structure ScannedText where
  text : List Char
  brokeLine : Bool
  cursor : Cursor

def endsAfterGap (flow : Bool) (indent : Nat) (p : Position) (text : List Char) : Bool :=
  (!flow && p.column < indent) || (p.column == 0 && isDocumentMark text) || text.head? == some '#'

def endsPlain (flow : Bool) (c : Char) (rest : List Char) : Bool :=
  (c == ':' && startsBlank rest) || (flow && isFlowIndicator c)

def isStrayColon (flow : Bool) (c : Char) (rest : List Char) : Bool :=
  flow && c == ':' && rest.head?.any fun d => isFlowIndicator d || d == '?'

def scanPlain (flow : Bool) (indent : Nat) (read : List Char) (gap : Gap) (p : Position) :
    List Char → Option ScannedText
  -- What has been read is kept latest first.
  | [] => some ⟨read.reverse, gap.breaksLine, ⟨p, []⟩⟩
  | c :: rest =>
    if isBlank c then
      if gap.breaksLine && p.column < indent && c == '\t' then
        none
      else
        scanPlain flow indent read (gap.addBlank c) (p.next c) rest
    else if isBreak c then
      scanPlain flow indent read (gap.addBreak c) p.nextLine rest
    else if !gap.isNone && endsAfterGap flow indent p (c :: rest) then
      some ⟨read.reverse, gap.breaksLine, ⟨p, c :: rest⟩⟩
    else if isStrayColon flow c rest then
      none
    else if endsPlain flow c rest then
      some ⟨read.reverse, gap.breaksLine, ⟨p, c :: rest⟩⟩
    else
      scanPlain flow indent (c :: (gap.text.reverse ++ read)) Gap.none (p.next c) rest

def scanSingleQuoted (read : List Char) (gap : Gap) (p : Position) :
    List Char → Option ScannedText
  | [] => none
  | c :: rest =>
    if isBlank c then
      scanSingleQuoted read (gap.addBlank c) (p.next c) rest
    else if isBreak c then
      scanSingleQuoted read (gap.addBreak c) p.nextLine rest
    else if p.column == 0 && isDocumentMark (c :: rest) then
      none
    else
      let read := gap.text.reverse ++ read
      if c = '\'' then
        match rest with
        | '\'' :: rest => scanSingleQuoted ('\'' :: read) Gap.none ((p.next c).next c) rest
        | rest => some ⟨read.reverse, false, ⟨p.next c, rest⟩⟩
      else
        scanSingleQuoted (c :: read) Gap.none (p.next c) rest

def escapeOf? : Char → Option (Char ⊕ Nat)
  | '0' => some (.inl '\x00')
  | 'a' => some (.inl '\x07')
  | 'b' => some (.inl '\x08')
  | 't' => some (.inl '\t')
  | '\t' => some (.inl '\t')
  | 'n' => some (.inl '\n')
  | 'v' => some (.inl '\x0b')
  | 'f' => some (.inl '\x0c')
  | 'r' => some (.inl '\r')
  | 'e' => some (.inl '\x1b')
  | ' ' => some (.inl ' ')
  | '"' => some (.inl '"')
  | '/' => some (.inl '/')
  | '\\' => some (.inl '\\')
  | 'N' => some (.inl '\u0085')
  | '_' => some (.inl '\u00a0')
  | 'L' => some (.inl '\u2028')
  | 'P' => some (.inl '\u2029')
  | 'x' => some (.inr 2)
  | 'u' => some (.inr 4)
  | 'U' => some (.inr 8)
  | _ => none

inductive QuoteMode where
  | text
  | escape
  | code (digits value : Nat)

def scanDoubleQuoted (mode : QuoteMode) (read : List Char) (gap : Gap) (p : Position) :
    List Char → Option ScannedText
  | [] => none
  | c :: rest =>
    match mode with
    | .code digits value =>
      match Bytes.ofHexDigit? c with
      | none => none
      | some digit =>
        let value := 16 * value + digit
        if 1 < digits then
          scanDoubleQuoted (.code (digits - 1) value) read gap (p.next c) rest
        else if value.isValidChar then
          scanDoubleQuoted .text (Char.ofNat value :: read) gap (p.next c) rest
        else
          none
    | .escape =>
      if isBreak c then
        scanDoubleQuoted .text read ⟨[], [], true⟩ p.nextLine rest
      else
        match escapeOf? c with
        | some (.inl meant) => scanDoubleQuoted .text (meant :: read) gap (p.next c) rest
        | some (.inr digits) => scanDoubleQuoted (.code digits 0) read gap (p.next c) rest
        | none => none
    | .text =>
      if isBlank c then
        scanDoubleQuoted .text read (gap.addBlank c) (p.next c) rest
      else if isBreak c then
        scanDoubleQuoted .text read (gap.addBreak c) p.nextLine rest
      else if p.column == 0 && isDocumentMark (c :: rest) then
        none
      else
        let read := gap.text.reverse ++ read
        if c = '"' then
          some ⟨read.reverse, false, ⟨p.next c, rest⟩⟩
        else if c = '\\' then
          scanDoubleQuoted .escape read Gap.none (p.next c) rest
        else
          scanDoubleQuoted .text (c :: read) Gap.none (p.next c) rest

inductive Chomping where
  | strip
  | clip
  | keep
  deriving DecidableEq, Repr

structure BlockHeader where
  chomping : Chomping
  increment : Option Nat

namespace BlockHeader

def chomping? : Char → Option Chomping
  | '-' => some .strip
  | '+' => some .keep
  | _ => none

def increment? (c : Char) : Option Nat :=
  if '1' ≤ c ∧ c ≤ '9' then some (c.toNat - '0'.toNat) else none

def read? : List Char → Option (BlockHeader × List Char)
  | c :: rest =>
    match chomping? c, increment? c with
    | some chomping, _ =>
      match rest with
      | '0' :: _ => none
      | d :: more =>
        match increment? d with
        | some n => some (⟨chomping, some n⟩, more)
        | none => some (⟨chomping, none⟩, rest)
      | [] => some (⟨chomping, none⟩, rest)
    | none, some n =>
      match rest with
      | d :: more =>
        match chomping? d with
        | some chomping => some (⟨chomping, some n⟩, more)
        | none => some (⟨.clip, some n⟩, rest)
      | [] => some (⟨.clip, some n⟩, rest)
    | none, none => if c = '0' then none else some (⟨.clip, none⟩, c :: rest)
  | [] => some (⟨.clip, none⟩, [])

end BlockHeader

structure BlockText where
  read : List Char
  lineEnd : Option Char
  emptyLines : List Char
  wasIndented : Bool
  widest : Nat

namespace BlockText

def empty : BlockText :=
  ⟨[], none, [], false, 0⟩

def beginLine (folded isIndented : Bool) (b : BlockText) : BlockText :=
  let joins := folded && b.lineEnd == some '\n' && !b.wasIndented && !isIndented
  let lineEnd :=
    if joins then
      if b.emptyLines.isEmpty then [' '] else []
    else
      b.lineEnd.toList
  { b with
    read := b.emptyLines ++ lineEnd ++ b.read
    lineEnd := none
    emptyLines := []
    wasIndented := isIndented }

def finish (chomping : Chomping) (b : BlockText) : List Char :=
  let tail := match chomping with
    | .strip => []
    | .clip => b.lineEnd.toList
    | .keep => b.emptyLines ++ b.lineEnd.toList
  (tail ++ b.read).reverse

end BlockText

/--
The lines of a block scalar. `indent` is `none` until the first line that is not empty shows it;
`least` is the smallest indentation that it can have.
-/
def scanBlock (folded : Bool) (chomping : Chomping) (least : Nat) (indent : Option Nat)
    (inLine : Bool) (b : BlockText) (p : Position) : List Char → Option ScannedText
  | [] => some ⟨b.finish chomping, true, ⟨p, []⟩⟩
  | c :: rest =>
    if inLine then
      if isBreak c then
        scanBlock folded chomping least indent false { b with lineEnd := some c } p.nextLine rest
      else
        scanBlock folded chomping least indent true { b with read := c :: b.read } (p.next c) rest
    else
      let inIndentation := indent.all (p.column < ·)
      if inIndentation && c == ' ' then
        scanBlock folded chomping least indent false b (p.next c) rest
      else if inIndentation && c == '\t' then
        none
      else if isBreak c then
        scanBlock folded chomping least indent false
          { b with emptyLines := c :: b.emptyLines, widest := max b.widest p.column }
          p.nextLine rest
      else
        let found := indent.getD (max (max b.widest p.column) least)
        if p.column = found then
          let b := b.beginLine folded (isBlank c)
          scanBlock folded chomping least (some found) true { b with read := c :: b.read }
            (p.next c) rest
        else
          some ⟨b.finish chomping, true, ⟨p, c :: rest⟩⟩

end CircuitPartition.Yaml
