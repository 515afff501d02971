/-!
A reproducible source of random words: the ChaCha stream cipher with twelve rounds, keyed by a seed.
-/

namespace CircuitPartition.Random

abbrev Block :=
  Vector UInt32 16

namespace Block

def rotateLeft (x n : UInt32) : UInt32 :=
  x <<< n ||| x >>> (32 - n)

def quarterRound (block : Block) (a b c d : Fin 16) : Block :=
  let (xa, xb, xc, xd) := (block[a], block[b], block[c], block[d])
  let xa := xa + xb
  let xd := rotateLeft (xd ^^^ xa) 16
  let xc := xc + xd
  let xb := rotateLeft (xb ^^^ xc) 12
  let xa := xa + xb
  let xd := rotateLeft (xd ^^^ xa) 8
  let xc := xc + xd
  let xb := rotateLeft (xb ^^^ xc) 7
  block |>.set a xa |>.set b xb |>.set c xc |>.set d xd

def doubleRound (block : Block) : Block :=
  block
    |>.quarterRound 0 4 8 12
    |>.quarterRound 1 5 9 13
    |>.quarterRound 2 6 10 14
    |>.quarterRound 3 7 11 15
    |>.quarterRound 0 5 10 15
    |>.quarterRound 1 6 11 12
    |>.quarterRound 2 7 8 13
    |>.quarterRound 3 4 9 14

def initial (key : Vector UInt32 8) (counter : UInt64) : Block :=
  #v[0x61707865, 0x3320646e, 0x79622d32, 0x6b206574,
    key[0], key[1], key[2], key[3], key[4], key[5], key[6], key[7],
    counter.toUInt32, (counter >>> 32).toUInt32, 0, 0]

def output (key : Vector UInt32 8) (counter : UInt64) : List UInt32 :=
  let start := initial key counter
  let mixed := Nat.repeat doubleRound 6 start
  (mixed.zipWith (· + ·) start).toList

end Block

structure Source where
  key : Vector UInt32 8
  counter : UInt64
  pending : List UInt32

abbrev Draw :=
  StateM Source

def word : Draw UInt32 := fun source =>
  match source.pending with
  | w :: pending => (w, { source with pending })
  | [] =>
    let words := Block.output source.key source.counter
    (words.headD 0, { source with counter := source.counter + 1, pending := words.tail })

def doubleWord : Draw UInt64 := do
  let low ← word
  let high ← word
  return high.toUInt64 <<< 32 ||| low.toUInt64

def bytes (count : Nat) : Draw (List UInt8) := do
  -- The rest of the last word is lost.
  let words : List UInt32 ← (List.replicate ((count + 3) / 4) ()).mapM fun () => word
  let all := words.flatMap fun (w : UInt32) =>
    [w.toUInt8, (w >>> 8).toUInt8, (w >>> 16).toUInt8, (w >>> 24).toUInt8]
  return all.take count

end CircuitPartition.Random
