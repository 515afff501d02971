import CircuitPartition.Random.Choice

/-!
What the generators of random hypergraphs ask of a source of random numbers.
-/

namespace CircuitPartition.Random

structure Sampler (σ : Type) where
  below32 : Nat → StateM σ Nat
  below64 : Nat → StateM σ Nat
  between? : Double → Double → StateM σ (Option Double)
  choose : List Nat → StateM σ (Option Nat)
  positions : Nat → Nat → StateM σ (List Nat)

namespace Sampler

def words : Sampler Source where
  below32 := Random.below32
  below64 := Random.below64
  between? := Random.between?
  choose := Random.choose
  positions := Random.positions

end Sampler

end CircuitPartition.Random
