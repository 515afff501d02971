import CircuitPartition.Scalar

/-!
Candidate moves of all pins of a hyperedge, and which of two is better.
-/

namespace CircuitPartition

structure Gain (α : Type) where
  hyperedge : Nat
  target : Option Nat
  gain : α
  weightSum : α
  deriving DecidableEq, Repr

namespace Gain

variable {α : Type} [Scalar α]

def tolerance : α :=
  -- Rounding must not pass for improvement.
  1e-9

def baseline (hyperedge : Nat) (weightSum : α) : Gain α :=
  ⟨hyperedge, none, 0, weightSum⟩

def isBetter (a b : Gain α) : Bool :=
  let difference := a.gain - b.gain
  if Scalar.abs difference ≤ tolerance then
    a.weightSum < b.weightSum
  else
    0 < difference

end Gain

end CircuitPartition
