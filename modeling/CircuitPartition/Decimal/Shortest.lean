import CircuitPartition.Double

/-!
The shortest decimal that reads back as a given double, found in exact integer arithmetic: of the
decimals in the interval that rounds to the double, one with the fewest digits, and of those the
nearest.
-/

namespace CircuitPartition.Decimal

structure Binary where
  mantissa : Nat
  exponent : Int
  lowerIsNearer : Bool
  deriving DecidableEq, Repr

namespace Binary

def ofDouble (x : Double) : Binary :=
  if x.biasedExponent = 0 then
    ⟨x.fraction, -1074, false⟩
  else
    ⟨x.fraction + Word.count 52, (x.biasedExponent : Int) - 1075,
      x.fraction == 0 && x.biasedExponent != 1⟩

def quotient (b : Binary) : Nat × Nat :=
  (b.mantissa * Nat.pow 2 b.exponent.toNat, Nat.pow 2 (-b.exponent).toNat)

end Binary

inductive Tie where
  | toEven
  | up
  deriving DecidableEq, Repr

structure Scaled where
  digits : Nat
  exponent : Int
  deriving DecidableEq, Repr

namespace Scaled

def trim (s : Scaled) : Scaled :=
  go s.digits s.exponent s.digits
where
  go (digits : Nat) (exponent : Int) : Nat → Scaled
    | 0 => ⟨digits, exponent⟩
    | fuel + 1 =>
      if digits ≠ 0 ∧ digits % 10 = 0 then
        go (digits / 10) (exponent + 1) fuel
      else
        ⟨digits, exponent⟩

end Scaled

/--
The multiple of `10 ^ k` that rounds to `b`, if there is one. The value and the ends of its interval
are counted in quarters of `2 ^ b.exponent`; the ends belong to the interval iff the mantissa is
even. Only the two multiples next to the value can be nearest.
-/
def onGrid (tie : Tie) (b : Binary) (k : Int) : Option Nat :=
  let scale := Nat.pow 2 (b.exponent - 2).toNat * Nat.pow 10 (-k).toNat
  let unit := Nat.pow 2 (2 - b.exponent).toNat * Nat.pow 10 k.toNat
  let value := 4 * b.mantissa * scale
  let low := (4 * b.mantissa - if b.lowerIsNearer then 1 else 2) * scale
  let high := (4 * b.mantissa + 2) * scale
  let inside (n : Nat) : Bool :=
    if b.mantissa % 2 = 0 then
      low ≤ n * unit && n * unit ≤ high
    else
      low < n * unit && n * unit < high
  let below := value / unit
  let above := below + 1
  match inside below, inside above with
  | false, false => none
  | true, false => some below
  | false, true => some above
  | true, true =>
    match compare (value - below * unit) (above * unit - value), tie with
    | .lt, _ => some below
    | .gt, _ => some above
    | .eq, .up => some above
    | .eq, .toEven => some (if below % 2 = 0 then below else above)

def shortest (tie : Tie) (b : Binary) : Scaled :=
  -- The search starts above the leading digit of the value, and never needs more than 17 digits.
  if b.mantissa = 0 then
    ⟨0, 0⟩
  else
    let bits : Int := b.mantissa.log2 + 1 + b.exponent
    (go (bits * 30103 / 100000 + 1) 24).trim
where
  go (k : Int) : Nat → Scaled
    | 0 => ⟨0, 0⟩
    | fuel + 1 =>
      match onGrid tie b k with
      | some digits => ⟨digits, k⟩
      | none => go (k - 1) fuel

end CircuitPartition.Decimal
