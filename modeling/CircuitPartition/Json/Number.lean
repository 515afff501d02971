import CircuitPartition.Decimal.Layout
import CircuitPartition.Json.Basic
import CircuitPartition.Json.Token
import CircuitPartition.Word

/-!
Numbers in JSON documents. Whole numbers are read exactly. A decimal is read as one division or
multiplication of a 64-bit integer by a power of ten, which may be off by a rounding step from the
nearest double.
-/

namespace CircuitPartition.Json

def takeWhole : (digits : List Char) → (significand : Nat) → Nat × Nat
  | [], significand => (significand, 0)
  | c :: digits, significand =>
    let next := 10 * significand + Decimal.valueOf [c]
    if next < Word.count 64 then takeWhole digits next else (significand, digits.length + 1)

def takeFraction : (digits : List Char) → (significand : Nat) → Nat × Nat
  | [], significand => (significand, 0)
  | c :: digits, significand =>
    let next := 10 * significand + Decimal.valueOf [c]
    if next < Word.count 64 then
      let (significand, taken) := takeFraction digits next
      (significand, taken + 1)
    else
      (significand, 0)

def powerOfTen (n : Nat) : Double :=
  OfScientific.ofScientific 1 false n

/--
`x` times a power of ten, unless that is infinite. Below the least power, divisions by `1e308` are
repeated; two of them turn any 64-bit integer into zero.
-/
def scale (x : Double) (exponent : Int) : (divisions : Nat) → Option Double
  | 0 => some x
  | n + 1 =>
    if exponent.natAbs ≤ 308 then
      if 0 ≤ exponent then
        let y := x * powerOfTen exponent.toNat
        if y.isInf then none else some y
      else
        some (x / powerOfTen exponent.natAbs)
    else if x == 0 then
      some x
    else if 0 ≤ exponent then
      none
    else
      scale (x / powerOfTen 308) (exponent + 308) n

def approximate (n : Decimal.Numeral) : Option Double :=
  -- An exponent beyond 32 bits makes zero if it is negative or the significand is zero.
  let (whole, skipped) := takeWhole n.whole 0
  let (significand, taken) := takeFraction (n.fraction.getD []) whole
  let magnitude := match n.exponent with
    | none => scale (significand : Double) (skipped - taken) 4
    | some e =>
      let written := Decimal.valueOf e.digits
      if written < Word.count 31 then
        let power : Int := if e.negative then -(written : Int) else written
        scale (significand : Double) (skipped - taken + power) 4
      else if significand = 0 ∨ e.negative then
        some 0
      else
        none
  magnitude.map fun x => if n.negative then -x else x

def nat? (limit : Nat) : Json → Option Nat
  | .number lexeme => do
    let n ← numeral? lexeme.toList
    let value := Decimal.valueOf n.whole
    if n.isWhole && !n.negative && value < limit then some value else none
  | _ => none

def double? : Json → Option Double
  | .number lexeme => do approximate (← numeral? lexeme.toList)
  | _ => none

def numberLayout : Decimal.Layout where
  positional := some (-5, 15)
  wholePoint := true
  exponentPlus := true
  tie := .toEven
  nan := "null"
  infinity := "null"

def ofDouble (x : Double) : Json :=
  -- JSON has no word for numbers that are not finite.
  if x.isFinite then .number (numberLayout.render x) else .null

end CircuitPartition.Json
