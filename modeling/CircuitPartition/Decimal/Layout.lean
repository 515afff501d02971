import CircuitPartition.Decimal.Shortest

/-!
How the digits of a double are laid out as text. The choices of a format are collected in a
`Layout`, so that every format of the library is one value of it.
-/

namespace CircuitPartition.Decimal

structure Layout where
  positional : Option (Int × Int)
  wholePoint : Bool
  exponentPlus : Bool
  tie : Tie
  nan : String
  infinity : String

namespace Layout

def tagged : Layout where
  positional := some (-4, 15)
  wholePoint := true
  exponentPlus := false
  tie := .up
  nan := "NaN"
  infinity := "inf"

def plain : Layout where
  positional := none
  wholePoint := false
  exponentPlus := false
  tie := .up
  nan := "NaN"
  infinity := "inf"

def digitsOf (n : Nat) : List Char :=
  Nat.toDigits 10 n

def positionalText (layout : Layout) (s : Scaled) : List Char :=
  let digits := digitsOf s.digits
  if 0 ≤ s.exponent then
    let whole := if s.digits = 0 then digits else digits ++ List.replicate s.exponent.toNat '0'
    if layout.wholePoint then whole ++ ['.', '0'] else whole
  else
    let places := (-s.exponent).toNat
    let padded := List.replicate (places + 1 - digits.length) '0' ++ digits
    padded.take (padded.length - places) ++ '.' :: padded.drop (padded.length - places)

def exponentText (layout : Layout) (s : Scaled) : List Char :=
  let digits := digitsOf s.digits
  let power := s.exponent + (digits.length - 1 : Nat)
  let fraction := digits.drop 1
  digits.take 1
    ++ (if fraction.isEmpty then [] else '.' :: fraction)
    ++ 'e' :: (if power < 0 then ['-'] else if layout.exponentPlus then ['+'] else [])
    ++ digitsOf power.natAbs

def magnitudeText (layout : Layout) (s : Scaled) : List Char :=
  let power := s.exponent + ((digitsOf s.digits).length - 1 : Nat)
  match layout.positional with
  | none => layout.positionalText s
  | some (lowest, highest) =>
    if s.digits = 0 ∨ lowest ≤ power ∧ power ≤ highest then
      layout.positionalText s
    else
      layout.exponentText s

def chars (layout : Layout) (x : Double) : List Char :=
  if x.isNaN then
    layout.nan.toList
  else
    let magnitude :=
      if x.isInf then
        layout.infinity.toList
      else
        layout.magnitudeText (shortest layout.tie (.ofDouble x))
    if x.isNegative then '-' :: magnitude else magnitude

def render (layout : Layout) (x : Double) : String :=
  String.ofList (layout.chars x)

end Layout

def bracketed (items : List String) : String :=
  "[" ++ ", ".intercalate items ++ "]"

end CircuitPartition.Decimal
