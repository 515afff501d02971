import CircuitPartition.Json.Number

/-!
Reading typed values out of JSON documents. A record may be written as an object, in which unknown
keys do not count, or as a list of its fields in order.
-/

namespace CircuitPartition.Json

inductive Presence where
  | required
  -- An object may leave it out, a list may not.
  | optional
  | defaulted
  deriving DecidableEq, Repr

structure Field where
  key : String
  presence : Presence

def valueOfKey? (entries : List (Option String × Json)) (key : String) : Option (Option Json) :=
  match entries.filter (·.1 == some key) with
  | [] => some none
  | [(_, value)] => some (some value)
  | _ => none

def fieldOfEntries? (entries : List (Option String × Json)) (field : Field) :
    Option (Option Json) := do
  match ← valueOfKey? entries field.key, field.presence with
  | none, .required => none
  | value, _ => return value

def fieldsOfItems? : List Field → List Json → Option (List (Option Json))
  | [], [] => some []
  | [], _ :: _ => none
  -- Fields with a default may be left over, items not.
  | field :: fields, [] =>
    if field.presence = .defaulted then (fieldsOfItems? fields []).map (none :: ·) else none
  | _ :: fields, item :: items => (fieldsOfItems? fields items).map (some item :: ·)

def record? (fields : List Field) : Json → Option (List (Option Json))
  | .object entries =>
    if entries.all (·.1.isSome) then fields.mapM (fieldOfEntries? entries) else none
  | .array items => fieldsOfItems? fields items
  | _ => none

def text? : Json → Option String
  | .string text => text
  | _ => none

def bool? : Json → Option Bool
  | .bool b => some b
  | _ => none

def list? {β : Type} (read : Json → Option β) : Json → Option (List β)
  | .array items => items.mapM read
  | _ => none

def optional? {β : Type} (read : Json → Option β) : Option Json → Option (Option β)
  | none | some .null => some none
  | some value => (read value).map some

def orDefault? {β : Type} (default : β) (read : Json → Option β) : Option Json → Option β
  | none => some default
  | some value => read value

def index? : Json → Option Nat :=
  nat? (Word.count 64)

def uint32? (value : Json) : Option UInt32 :=
  (value.nat? (Word.count 32)).map UInt32.ofNat

def ofDoubles (xs : List Double) : Json :=
  .array (xs.map ofDouble)

def ofIndices (ns : List Nat) : Json :=
  .array (ns.map ofNat)

end CircuitPartition.Json
