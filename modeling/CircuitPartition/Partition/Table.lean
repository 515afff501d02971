import CircuitPartition.Machine
import CircuitPartition.Scalar

/-!
The two tables that follow a partition: how many pins of a hyperedge lie in each block, and how much
vertex weight each block carries.
-/

namespace CircuitPartition

abbrev Degrees :=
  Array Nat

namespace Degrees

def enter? (degrees : Degrees) (block : Nat) : Option Degrees := do
  return degrees.set! block ((← degrees[block]?) + 1)

def spanned (degrees : Degrees) : Nat :=
  degrees.countP (0 < ·)

def ofBlocks? (numParts : Nat) (blocks : List Nat) : Option Degrees :=
  blocks.foldlM enter? (Array.replicate numParts 0)

end Degrees

namespace Counting

variable (counting : Counting) (degrees : Degrees) (block : Nat)

def enter : Except Fault Degrees := do
  return degrees.set! block (← counting.next (← degrees[block]?))

def leave : Except Fault Degrees := do
  return degrees.set! block (← counting.previous (← degrees[block]?))

end Counting

abbrev Balance (α : Type) :=
  Array (List α)

namespace Balance

variable {α : Type} [Scalar α]

def enter? (balance : Balance α) (block : Nat) (weight : List α) : Option (Balance α) := do
  let row ← balance[block]?
  if row.length < weight.length then none else return balance.set! block (addOnto row weight)

def leave? (balance : Balance α) (block : Nat) (weight : List α) : Option (Balance α) := do
  let row ← balance[block]?
  if row.length < weight.length then none else return balance.set! block (takeOff row weight)

def empty (numParts dimensions : Nat) : Balance α :=
  Array.replicate numParts (List.replicate dimensions 0)

end Balance

end CircuitPartition
