/-!
JSON documents.
-/

namespace CircuitPartition

/--
A JSON value. A number is kept as it is written. A string or key without a text is one that names
half of a surrogate pair: such a string can be passed over, but not read.
-/
inductive Json where
  | null
  | bool (b : Bool)
  | number (lexeme : String)
  | string (text : Option String)
  | array (items : List Json)
  | object (entries : List (Option String × Json))

namespace Json

def ofString (s : String) : Json :=
  .string (some s)

def ofNat (n : Nat) : Json :=
  .number (toString n)

def ofFields (fields : List (String × Json)) : Json :=
  .object (fields.map fun (key, value) => (some key, value))

end Json

end CircuitPartition
