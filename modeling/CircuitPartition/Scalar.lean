/-!
The numbers a cost model computes with. The running library instantiates them with doubles; whatever
is said about exact arithmetic instantiates the same definitions with exact numbers.
-/

namespace CircuitPartition

/--
Arithmetic, comparison and the few functions that weights, slacks and costs need. No law is asked
for: doubles satisfy almost none.
-/
class Scalar (α : Type) extends Add α, Sub α, Mul α, Div α, Neg α, LT α, LE α, BEq α, Zero α, One α,
    NatCast α, OfScientific α where
  toDecidableLT : DecidableLT α
  toDecidableLE : DecidableLE α
  pow : α → α → α
  sqrt : α → α
  isFinite : α → Bool

attribute [reducible, instance] Scalar.toDecidableLT Scalar.toDecidableLE

namespace Scalar

variable {α : Type} [Scalar α]

def min (a b : α) : α :=
  if b == b then (if a < b then a else b) else a

def max (a b : α) : α :=
  if b == b then (if b < a then a else b) else a

def abs (a : α) : α :=
  if a < 0 then -a else a

def sum (values : List α) : α :=
  values.foldl (· + ·) 0

end Scalar

variable {α : Type} [Scalar α]

def dot (factors weights : List α) : α :=
  -- What the longer list has without a match is left out.
  Scalar.sum (List.zipWith (· * ·) factors weights)

def approxEq (a b tolerance : α) : Bool :=
  let scale := Scalar.max (Scalar.max (Scalar.abs a) (Scalar.abs b)) 1
  Scalar.abs (a - b) ≤ tolerance * scale

def addOnto : (row weights : List α) → List α
  | a :: row, w :: weights => (a + w) :: addOnto row weights
  | row, _ => row

@[simp]
theorem length_addOnto (row weights : List α) : (addOnto row weights).length = row.length := by
  fun_induction addOnto row weights <;> simp_all

def takeOff : (row weights : List α) → List α
  | a :: row, w :: weights => (a - w) :: takeOff row weights
  | row, _ => row

@[simp]
theorem length_takeOff (row weights : List α) : (takeOff row weights).length = row.length := by
  fun_induction takeOff row weights <;> simp_all

end CircuitPartition
