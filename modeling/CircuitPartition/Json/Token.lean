import CircuitPartition.Bytes
import CircuitPartition.Decimal.Numeral

/-!
The tokens of a JSON text, found character by character.
-/

namespace CircuitPartition.Json

inductive Token where
  | beginArray
  | endArray
  | beginObject
  | endObject
  | comma
  | colon
  | null
  | bool (b : Bool)
  | number (lexeme : String)
  | string (text : Option String)
  deriving DecidableEq, Repr

inductive Piece where
  | char (c : Char)
  | unit (n : Nat)
  deriving DecidableEq, Repr

namespace Piece

def isHighSurrogate (n : Nat) : Bool :=
  0xD800 ≤ n && n < 0xDC00

def isLowSurrogate (n : Nat) : Bool :=
  0xDC00 ≤ n && n < 0xE000

def text? : List Piece → Option (List Char)
  | [] => some []
  | char c :: pieces => (text? pieces).map (c :: ·)
  | unit high :: unit low :: pieces =>
    if isHighSurrogate high then
      if isLowSurrogate low then
        (text? pieces).map (Char.ofNat (0x10000 + (high - 0xD800) * 0x400 + (low - 0xDC00)) :: ·)
      -- Half of a surrogate pair stands for no character.
      else
        none
    else if isLowSurrogate high then
      none
    else
      (text? (unit low :: pieces)).map (Char.ofNat high :: ·)
  | unit n :: pieces =>
    if isHighSurrogate n || isLowSurrogate n then
      none
    else
      (text? pieces).map (Char.ofNat n :: ·)

end Piece

def escaped? : Char → Option Char
  | '"' => some '"'
  | '\\' => some '\\'
  | '/' => some '/'
  | 'b' => some '\x08'
  | 'f' => some '\x0c'
  | 'n' => some '\n'
  | 'r' => some '\r'
  | 't' => some '\t'
  | _ => none

def numeral? (word : List Char) : Option Decimal.Numeral := do
  let n ← match word with
    | '-' :: rest => Decimal.Numeral.read? true rest
    | rest => Decimal.Numeral.read? false rest
  match n.whole, n.fraction with
  | [], _ => none
  | '0' :: _ :: _, _ => none
  | _, some [] => none
  | _, _ => some n

def isWordChar (c : Char) : Bool :=
  c.isAlphanum || c == '-' || c == '+' || c == '.'

def ofWord? (word : List Char) : Option Token :=
  match String.ofList word with
  | "null" => some .null
  | "true" => some (.bool true)
  | "false" => some (.bool false)
  | lexeme => (numeral? word).map fun _ => .number lexeme

inductive Mode where
  | between
  | word (chars : List Char)
  | text (pieces : List Piece)
  | escape (pieces : List Piece)
  | unit (pieces : List Piece) (digits : List Char)

structure Lexer where
  mode : Mode
  tokens : List Token

namespace Lexer

def emit (lexer : Lexer) (token : Token) : Lexer :=
  ⟨.between, token :: lexer.tokens⟩

def start (lexer : Lexer) (c : Char) : Option Lexer :=
  match c with
  | ' ' | '\t' | '\n' | '\r' => some lexer
  | '[' => some (lexer.emit .beginArray)
  | ']' => some (lexer.emit .endArray)
  | '\x7b' => some (lexer.emit .beginObject)
  | '\x7d' => some (lexer.emit .endObject)
  | ',' => some (lexer.emit .comma)
  | ':' => some (lexer.emit .colon)
  | '"' => some { lexer with mode := .text [] }
  | c => if isWordChar c then some { lexer with mode := .word [c] } else none

def endWord (lexer : Lexer) : Option Lexer :=
  match lexer.mode with
  | .between => some lexer
  | .word chars => (ofWord? chars.reverse).map lexer.emit
  | _ => none

def step (lexer : Lexer) (c : Char) : Option Lexer :=
  match lexer.mode with
  | .between => lexer.start c
  | .word chars =>
    if isWordChar c then
      some { lexer with mode := .word (c :: chars) }
    else
      lexer.endWord.bind (·.start c)
  | .text pieces =>
    if c = '"' then
      some (lexer.emit (.string ((Piece.text? pieces.reverse).map String.ofList)))
    else if c = '\\' then
      some { lexer with mode := .escape pieces }
    else if c < ' ' then
      none
    else
      some { lexer with mode := .text (.char c :: pieces) }
  | .escape pieces =>
    if c = 'u' then
      some { lexer with mode := .unit pieces [] }
    else
      (escaped? c).map fun c => { lexer with mode := .text (.char c :: pieces) }
  | .unit pieces digits =>
    if digits.length < 3 then
      some { lexer with mode := .unit pieces (c :: digits) }
    else
      (Bytes.hexValue? (c :: digits).reverse).map fun n =>
        { lexer with mode := .text (.unit n :: pieces) }

end Lexer

def tokens? (text : List Char) : Option (List Token) := do
  let lexer ← text.foldlM Lexer.step ⟨.between, []⟩
  return (← lexer.endWord).tokens.reverse

end CircuitPartition.Json
