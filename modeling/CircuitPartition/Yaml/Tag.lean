import CircuitPartition.Bytes
import CircuitPartition.Yaml.Token

/-!
Tags and directives, which keep to one line. A tag is a byte string: what it escapes need not make
up a character. A scanner gives what follows what it has read.
-/

namespace CircuitPartition.Yaml

def isTagChar (delimited : Bool) (c : Char) : Bool :=
  -- Brackets and commas belong to a tag only where it is delimited.
  isWordChar c || (delimited && (c == ',' || c == '[' || c == ']'))
    || [';', '/', '?', ':', '@', '&', '=', '+', '$', '.', '!', '~', '*', '\'', '(', ')'].contains c

def escapedByte? : List Char → Option (UInt8 × List Char)
  | '%' :: high :: low :: rest => (Bytes.hexValue? [high, low]).map (UInt8.ofNat ·, rest)
  | _ => none

def followers? (first : UInt8) : Option Nat :=
  if first < 0x80 then some 0
  else if first &&& 0xe0 = 0xc0 then some 1
  else if first &&& 0xf0 = 0xe0 then some 2
  else if first &&& 0xf8 = 0xf0 then some 3
  else none

def followingBytes? : (count : Nat) → List Char → Option (Tag × List Char)
  | 0, rest => some ([], rest)
  | count + 1, text => do
    let (byte, rest) ← escapedByte? text
    if byte &&& 0xc0 ≠ 0x80 then
      none
    let (bytes, rest) ← followingBytes? count rest
    return (byte :: bytes, rest)

def escapedBytes? (text : List Char) : Option (Tag × List Char) := do
  let (first, rest) ← escapedByte? text
  let (bytes, rest) ← followingBytes? (← followers? first) rest
  return (first :: bytes, rest)

def scanTagText (delimited : Bool) : (fuel : Nat) → List Char → Option (Tag × List Char)
  | 0, rest => some ([], rest)
  | _ + 1, [] => some ([], [])
  | fuel + 1, c :: rest =>
    if c = '%' then do
      let (bytes, rest) ← escapedBytes? (c :: rest)
      let (text, rest) ← scanTagText delimited fuel rest
      return (bytes ++ text, rest)
    else if isTagChar delimited c then do
      let (text, rest) ← scanTagText delimited fuel rest
      return (UInt8.ofNat c.toNat :: text, rest)
    else
      some ([], c :: rest)

def tagText? (delimited : Bool) (text : List Char) : Option (Tag × List Char) :=
  scanTagText delimited text.length text

def effective (tag : Tag) : Tag :=
  -- A tag ends before its first zero byte.
  tag.takeWhile (· != 0)

def tagSuffix? (delimited : Bool) (text : List Char) : Option (Tag × List Char) := do
  let (suffix, rest) ← tagText? delimited text
  if suffix.isEmpty then none else return (effective suffix, rest)

def endsTag (flow : Bool) (rest : List Char) : Bool :=
  startsBlank rest || (flow && rest.head? == some ',')

def scanTag? (text : List Char) : Option (Token × List Char) :=
  match text with
  | '<' :: text => do
    match ← tagSuffix? true text with
    | (suffix, '>' :: rest) => return (.tag "" suffix, rest)
    | _ => none
  | text =>
    let word := text.takeWhile isWordChar
    match text.dropWhile isWordChar with
    | '!' :: rest => do
      let (suffix, rest) ← tagSuffix? false rest
      return (.tag ("!" ++ String.ofList word ++ "!") suffix, rest)
    | rest => do
      let (more, rest) ← tagText? false rest
      match (String.ofList word).toUTF8.toList ++ effective more with
      | [] => return (.tag "" [0x21], rest)
      | suffix => return (.tag "!" suffix, rest)

def versionNumber? (text : List Char) : Option (Nat × List Char) :=
  let digits := text.takeWhile Char.isDigit
  if digits.isEmpty || 9 < digits.length then
    none
  else
    some (digits.foldl (fun n c => 10 * n + (c.toNat - '0'.toNat)) 0, text.dropWhile Char.isDigit)

def scanVersion? (text : List Char) : Option (Token × List Char) := do
  match ← versionNumber? (text.dropWhile isBlank) with
  | (major, '.' :: rest) =>
    let (minor, rest) ← versionNumber? rest
    return (.versionDirective major minor, rest)
  | _ => none

def scanHandle? : List Char → Option (String × List Char)
  | '!' :: text =>
    let word := text.takeWhile isWordChar
    match text.dropWhile isWordChar with
    | '!' :: rest => some ("!" ++ String.ofList word ++ "!", rest)
    | rest => if word.isEmpty then some ("!", rest) else none
  | _ => none

def scanTagDirective? (text : List Char) : Option (Token × List Char) := do
  let (handle, rest) ← scanHandle? (text.dropWhile isBlank)
  if !rest.head?.any isBlank then
    none
  let (start, rest) ← tagSuffix? true (rest.dropWhile isBlank)
  if startsBlank rest then return (.tagDirective handle start, rest) else none

def isLineEnd (line : List Char) : Bool :=
  match line.dropWhile isBlank with
  | [] => true
  | c :: _ => c == '#'

def scanDirective? (line : List Char) : Option Token := do
  let name := line.takeWhile isWordChar
  let rest := line.dropWhile isWordChar
  if !startsBlank rest then
    none
  let (token, rest) ← match String.ofList name with
    | "YAML" => scanVersion? rest
    | "TAG" => scanTagDirective? rest
    | _ => none
  if isLineEnd rest then return token else none

end CircuitPartition.Yaml
