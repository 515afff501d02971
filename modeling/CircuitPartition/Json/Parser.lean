import CircuitPartition.Json.Basic
import CircuitPartition.Json.Token

/-!
Reading JSON texts. Values may be nested to any depth: what is open is kept on a stack.
-/

namespace CircuitPartition.Json

inductive Frame where
  | array (items : List Json)
  | object (entries : List (Option String × Json))
  | entry (entries : List (Option String × Json)) (key : Option String)

inductive Expectation where
  | value
  | firstItem
  | firstKey
  | key
  | colon
  | separator
  deriving DecidableEq, Repr

inductive Progress where
  | within (frames : List Frame) (expected : Expectation)
  | complete (value : Json)

namespace Progress

def place (value : Json) : List Frame → Option Progress
  | [] => some (complete value)
  | .array items :: frames => some (within (.array (value :: items) :: frames) .separator)
  | .entry entries key :: frames =>
    some (within (.object ((key, value) :: entries) :: frames) .separator)
  | .object _ :: _ => none

def begin (frames : List Frame) : Token → Option Progress
  | .beginArray => some (within (.array [] :: frames) .firstItem)
  | .beginObject => some (within (.object [] :: frames) .firstKey)
  | .null => place .null frames
  | .bool b => place (.bool b) frames
  | .number lexeme => place (.number lexeme) frames
  | .string text => place (.string text) frames
  | _ => none

def step : Progress → Token → Option Progress
  | complete _, _ => none
  | within frames expected, token =>
    match expected, token, frames with
    | .value, token, frames => begin frames token
    | .firstItem, .endArray, .array _ :: frames => place (.array []) frames
    | .firstItem, token, frames => begin frames token
    | .firstKey, .endObject, .object _ :: frames => place (.object []) frames
    | .firstKey, .string key, .object entries :: frames
    | .key, .string key, .object entries :: frames =>
      some (within (.entry entries key :: frames) .colon)
    | .colon, .colon, frames => some (within frames .value)
    | .separator, .comma, .array items :: frames => some (within (.array items :: frames) .value)
    | .separator, .comma, .object entries :: frames =>
      some (within (.object entries :: frames) .key)
    | .separator, .endArray, .array items :: frames => place (.array items.reverse) frames
    | .separator, .endObject, .object entries :: frames => place (.object entries.reverse) frames
    | _, _, _ => none

end Progress

def ofTokens? (tokens : List Token) : Option Json := do
  match ← tokens.foldlM Progress.step (.within [] .value) with
  | .complete value => some value
  | .within _ _ => none

def parse? (text : String) : Option Json := do
  ofTokens? (← tokens? text.toList)

end CircuitPartition.Json
