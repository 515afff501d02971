import CircuitPartition.Random.Source

/-!
Seeds of random sources. Every start of an experiment has a seed of its own, which depends on
nothing but the seed of the experiment and the number of the start.
-/

namespace CircuitPartition.Random

structure Sip where
  v0 : UInt64
  v1 : UInt64
  v2 : UInt64
  v3 : UInt64

namespace Sip

def rotateLeft (x n : UInt64) : UInt64 :=
  x <<< n ||| x >>> (64 - n)

def initial : Sip :=
  ⟨0x736f6d6570736575, 0x646f72616e646f6d, 0x6c7967656e657261, 0x7465646279746573⟩

def round (s : Sip) : Sip :=
  let v0 := s.v0 + s.v1
  let v1 := rotateLeft s.v1 13 ^^^ v0
  let v0 := rotateLeft v0 32
  let v2 := s.v2 + s.v3
  let v3 := rotateLeft s.v3 16 ^^^ v2
  let v0 := v0 + v3
  let v3 := rotateLeft v3 21 ^^^ v0
  let v2 := v2 + v1
  let v1 := rotateLeft v1 17 ^^^ v2
  let v2 := rotateLeft v2 32
  ⟨v0, v1, v2, v3⟩

def absorb (s : Sip) (word : UInt64) : Sip :=
  let s := round { s with v3 := s.v3 ^^^ word }
  { s with v0 := s.v0 ^^^ word }

def finish (s : Sip) : UInt64 :=
  let s := Nat.repeat round 3 { s with v2 := s.v2 ^^^ 0xff }
  s.v0 ^^^ s.v1 ^^^ s.v2 ^^^ s.v3

def hash (words : List UInt64) : UInt64 :=
  let length : UInt64 := UInt64.ofNat (8 * words.length) <<< 56
  (absorb (words.foldl absorb initial) length).finish

end Sip

def startSeed (master start : UInt64) : UInt64 :=
  Sip.hash [master, start]

def advanceSeed (seed : UInt64) : UInt64 :=
  seed * 6364136223846793005 + 11634580027462260723

def seedWord (seed : UInt64) : UInt32 :=
  let x := (((seed >>> 18) ^^^ seed) >>> 27).toUInt32
  let n := (seed >>> 59).toUInt32
  x >>> n ||| x <<< ((32 - n) % 32)

def seedKey (seed : UInt64) : Vector UInt32 8 :=
  Vector.ofFn fun i => seedWord (Nat.repeat advanceSeed (i.val + 1) seed)

namespace Source

def ofSeed (seed : UInt64) : Source :=
  ⟨seedKey seed, 0, []⟩

def forStart (master start : UInt64) : Source :=
  ofSeed (startSeed master start)

end Source

end CircuitPartition.Random
