import CircuitPartition.Bytes
import CircuitPartition.Json.Basic

/-!
Writing JSON texts, on one line or with a line per item. The writers put a value in front of what
follows it.
-/

namespace CircuitPartition.Json

def escape (c : Char) : List Char :=
  match c with
  | '"' => ['\\', '"']
  | '\\' => ['\\', '\\']
  | '\x08' => ['\\', 'b']
  | '\x0c' => ['\\', 'f']
  | '\n' => ['\\', 'n']
  | '\r' => ['\\', 'r']
  | '\t' => ['\\', 't']
  | c =>
    if c < ' ' then
      ['\\', 'u', '0', '0', Bytes.hexDigit (c.toNat / 16), Bytes.hexDigit (c.toNat % 16)]
    else
      [c]

def writeString (text : Option String) (rest : List Char) : List Char :=
  '"' :: ((text.getD "").toList.flatMap escape ++ '"' :: rest)

mutual

def write : Json → List Char → List Char
  | .null, rest => "null".toList ++ rest
  | .bool b, rest => (if b then "true" else "false").toList ++ rest
  | .number lexeme, rest => lexeme.toList ++ rest
  | .string text, rest => writeString text rest
  | .array [], rest => '[' :: ']' :: rest
  | .array (item :: items), rest => '[' :: write item (writeItems items (']' :: rest))
  | .object [], rest => '\x7b' :: '\x7d' :: rest
  | .object ((key, value) :: entries), rest =>
    '\x7b' :: writeString key (':' :: write value (writeEntries entries ('\x7d' :: rest)))

def writeItems : List Json → List Char → List Char
  | [], rest => rest
  | item :: items, rest => ',' :: write item (writeItems items rest)

def writeEntries : List (Option String × Json) → List Char → List Char
  | [], rest => rest
  | (key, value) :: entries, rest =>
    ',' :: writeString key (':' :: write value (writeEntries entries rest))

end

def compact (value : Json) : String :=
  String.ofList (write value [])

def newLine (level : Nat) (rest : List Char) : List Char :=
  '\n' :: (List.replicate (2 * level) ' ' ++ rest)

mutual

def writeIndented (level : Nat) : Json → List Char → List Char
  | .array (item :: items), rest =>
    '[' :: newLine (level + 1) (writeIndented (level + 1) item
      (indentItems (level + 1) items (newLine level (']' :: rest))))
  | .object ((key, value) :: entries), rest =>
    '\x7b' :: newLine (level + 1) (writeString key (':' :: ' ' :: writeIndented (level + 1) value
      (indentEntries (level + 1) entries (newLine level ('\x7d' :: rest)))))
  | value, rest => write value rest

def indentItems (level : Nat) : List Json → List Char → List Char
  | [], rest => rest
  | item :: items, rest =>
    ',' :: newLine level (writeIndented level item (indentItems level items rest))

def indentEntries (level : Nat) : List (Option String × Json) → List Char → List Char
  | [], rest => rest
  | (key, value) :: entries, rest =>
    ',' :: newLine level (writeString key (':' :: ' ' :: writeIndented level value
      (indentEntries level entries rest)))

end

def pretty (value : Json) : String :=
  String.ofList (writeIndented 0 value [])

end CircuitPartition.Json
