import CircuitPartition.Decimal.Shortest

/-!
Doubles rounded to a fixed number of decimal places.
-/

namespace CircuitPartition.Decimal

def roundDiv (numerator denominator : Nat) : Nat :=
  let below := numerator / denominator
  let rest := 2 * (numerator % denominator)
  if rest < denominator ∨ rest = denominator ∧ below % 2 = 0 then below else below + 1

def fixed (places : Nat) (x : Double) : String :=
  if x.isNaN then
    "NaN"
  else if x.isInf then
    if x.isNegative then "-inf" else "inf"
  else
    let (numerator, denominator) := (Binary.ofDouble x).quotient
    let unit := Nat.pow 10 places
    let units := roundDiv (numerator * unit) denominator
    let fraction := Nat.toDigits 10 (units % unit)
    let sign := if x.isNegative && units != 0 then ['-'] else []
    String.ofList <| sign ++ Nat.toDigits 10 (units / unit)
      ++ '.' :: List.replicate (places - fraction.length) '0' ++ fraction

end CircuitPartition.Decimal
