import CircuitPartition.Scalar
import CircuitPartition.Word

/-!
Doubles as their bits, which are what is stored and what digests are taken of. Many bit patterns are
no number; arithmetic does not tell them apart, storing does.
-/

namespace CircuitPartition

/-- Two doubles are the same if their bits are; `==` compares them as numbers. -/
structure Double where
  bits : UInt64
  deriving DecidableEq, Repr

namespace Double

def ofFloat (x : Float) : Double :=
  ⟨x.toBits⟩

def toFloat (x : Double) : Float :=
  Float.ofBits x.bits

def isNegative (x : Double) : Bool :=
  x.bits >>> 63 == 1

def biasedExponent (x : Double) : Nat :=
  (x.bits >>> 52).toNat % Word.count 11

def fraction (x : Double) : Nat :=
  x.bits.toNat % Word.count 52

def isFinite (x : Double) : Bool :=
  x.biasedExponent + 1 != Word.count 11

def isInf (x : Double) : Bool :=
  !x.isFinite && x.fraction == 0

def isNaN (x : Double) : Bool :=
  !x.isFinite && x.fraction != 0

def infinity : Double :=
  ⟨0x7ff0000000000000⟩

def nan : Double :=
  ⟨0x7ff8000000000000⟩

instance : Scalar Double where
  add x y := ofFloat (x.toFloat + y.toFloat)
  sub x y := ofFloat (x.toFloat - y.toFloat)
  mul x y := ofFloat (x.toFloat * y.toFloat)
  div x y := ofFloat (x.toFloat / y.toFloat)
  neg x := ofFloat (-x.toFloat)
  lt x y := x.toFloat < y.toFloat
  le x y := x.toFloat ≤ y.toFloat
  beq x y := x.toFloat == y.toFloat
  zero := ofFloat 0
  one := ofFloat 1
  natCast n := ofFloat (.ofNat n)
  ofScientific digits negative exponent := ofFloat (.ofScientific digits negative exponent)
  toDecidableLT x y := inferInstanceAs (Decidable (x.toFloat < y.toFloat))
  toDecidableLE x y := inferInstanceAs (Decidable (x.toFloat ≤ y.toFloat))
  pow x y := ofFloat (x.toFloat.pow y.toFloat)
  sqrt x := ofFloat x.toFloat.sqrt
  isFinite := isFinite

end Double

end CircuitPartition
