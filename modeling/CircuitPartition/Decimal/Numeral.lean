import CircuitPartition.Double

/-!
Written decimal numbers: sign, digits before and after the point, and exponent.
-/

namespace CircuitPartition.Decimal

structure Exponent where
  negative : Bool
  digits : List Char
  deriving DecidableEq, Repr

structure Numeral where
  negative : Bool
  whole : List Char
  fraction : Option (List Char)
  exponent : Option Exponent
  deriving DecidableEq, Repr

def valueOf (digits : List Char) : Nat :=
  digits.foldl (fun value c => 10 * value + (c.toNat - '0'.toNat)) 0

namespace Exponent

def read? : List Char → Option Exponent
  | '-' :: digits => go true digits
  | '+' :: digits => go false digits
  | digits => go false digits
where
  go (negative : Bool) (digits : List Char) : Option Exponent :=
    if !digits.isEmpty && digits.all Char.isDigit then some ⟨negative, digits⟩ else none

end Exponent

namespace Numeral

def read? (negative : Bool) (text : List Char) : Option Numeral :=
  let whole := text.takeWhile Char.isDigit
  match text.dropWhile Char.isDigit with
  | '.' :: rest =>
    let fraction := rest.takeWhile Char.isDigit
    tail ⟨negative, whole, some fraction, none⟩ (rest.dropWhile Char.isDigit)
  | rest => tail ⟨negative, whole, none, none⟩ rest
where
  tail (numeral : Numeral) : List Char → Option Numeral
    | [] => some numeral
    | c :: rest =>
      if c = 'e' ∨ c = 'E' then
        (Exponent.read? rest).map fun e => { numeral with exponent := some e }
      else
        none

def isWhole (n : Numeral) : Bool :=
  n.fraction.isNone && n.exponent.isNone

def toDouble (n : Numeral) : Double :=
  -- Far outside the range of doubles the exponent alone decides.
  let fraction := n.fraction.getD []
  let digits := valueOf (n.whole ++ fraction)
  let written : Int := match n.exponent with
    | none => 0
    | some e => if e.negative then -(valueOf e.digits : Int) else valueOf e.digits
  let power := written - fraction.length
  let leading : Int := (Nat.toDigits 10 digits).length + power
  let magnitude : Double :=
    if digits = 0 ∨ leading < -400 then 0
    else if 400 < leading then .infinity
    else OfScientific.ofScientific digits (power < 0) power.natAbs
  if n.negative then -magnitude else magnitude

end Numeral

end CircuitPartition.Decimal
