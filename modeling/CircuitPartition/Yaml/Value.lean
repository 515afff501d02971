import CircuitPartition.Decimal.Numeral
import CircuitPartition.Bytes
import CircuitPartition.Yaml.Node

/-!
Reading typed values out of YAML documents.
-/

namespace CircuitPartition.Yaml

def digits? (base : Nat) (digits : List Char) : Option Nat := do
  if digits.isEmpty then
    none
  digits.foldlM
    (fun n c => do
      let digit ← Bytes.ofHexDigit? c
      if digit < base then return base * n + digit else none) 0

def decimal? (text : List Char) : Option Nat :=
  match text with
  | '0' :: _ :: _ => none
  | text => digits? 10 text

def nat? (limit : Nat) (text : List Char) : Option Nat := do
  let n ← match withoutPlus text with
    | '0' :: 'x' :: digits => digits? 16 digits
    | '0' :: 'o' :: digits => digits? 8 digits
    | '0' :: 'b' :: digits => digits? 2 digits
    | digits => decimal? digits
  if n < limit then return n else none
where
  withoutPlus : List Char → List Char
    | '+' :: text => text
    | text => text

def finite? (negative : Bool) (text : List Char) : Option Double := do
  let numeral ← Decimal.Numeral.read? negative text
  if numeral.whole.isEmpty && (numeral.fraction.getD []).isEmpty then
    none
  let x := numeral.toDouble
  if x.isInf then none else return x

def double? (text : List Char) : Option Double :=
  match text with
  | '+' :: text => unsigned? text
  | '-' :: text =>
    if isInfinity text then some (-.infinity) else finite? true text
  | text =>
    if [".nan", ".NaN", ".NAN"].contains (String.ofList text) then
      some .nan
    else
      unsigned? text
where
  isInfinity (text : List Char) : Bool :=
    [".inf", ".Inf", ".INF"].contains (String.ofList text)
  unsigned? (text : List Char) : Option Double :=
    if isInfinity text then some .infinity else finite? false text

def bool? (text : List Char) : Option Bool :=
  match String.ofList text with
  | "true" | "True" | "TRUE" => some true
  | "false" | "False" | "FALSE" => some false
  | _ => none

namespace Document

variable (d : Document)

def scalarText? (type : String) (node : Node Nat) : Option (List Char) := do
  match ← d.resolve? node with
  | .scalar _ _ .plain text => return text.toList
  | .scalar _ (some tag) .literal text =>
    if tag = ("tag:yaml.org,2002:" ++ type).toUTF8.toList then return text.toList else none
  | _ => none

def nat? (limit : Nat) (node : Node Nat) : Option Nat := do
  Yaml.nat? limit (← d.scalarText? "int" node)

def double? (node : Node Nat) : Option Double := do
  Yaml.double? (← d.scalarText? "float" node)

def bool? (node : Node Nat) : Option Bool := do
  Yaml.bool? (← d.scalarText? "bool" node)

def list? {β : Type} (read : Node Nat → Option β) (node : Node Nat) : Option (List β) := do
  match ← d.resolve? node with
  | .sequence _ items => items.mapM read
  | .scalar _ _ .plain "" => return []
  | _ => none

def key? (node : Node Nat) : Option String := do
  match ← d.resolve? node with
  | .scalar _ _ _ text => return text
  | _ => none

def entries? (node : Node Nat) : Option (List (String × Node Nat)) := do
  match ← d.resolve? node with
  | .mapping _ entries => entries.mapM fun (key, value) => return (← d.key? key, value)
  | .scalar _ _ .plain "" => return []
  | _ => none

end Document

def field? {β : Type} (entries : List (String × Node Nat)) (key : String) (default : β)
    (read : Node Nat → Option β) : Option β :=
  match entries.filter (·.1 == key) with
  | [] => some default
  | [(_, value)] => read value
  | _ => none

end CircuitPartition.Yaml
