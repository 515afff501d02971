import CircuitPartition.Random.Uniform

/-!
Random choices from lists: one item, or several distinct positions in random order.
-/

namespace CircuitPartition.Random

def choose {β : Type} (items : List β) : Draw (Option β) := do
  if items.isEmpty then
    return none
  else
    return items[← below32 items.length]?

def exchange (items : Array Nat) (i j : Nat) : Array Nat :=
  items.swapIfInBounds i j

def shuffleFront (length count : Nat) : Draw (List Nat) := do
  let positions ← (List.range count).foldlM
    (fun positions i => return exchange positions i (i + (← below32 (length - i))))
    (Array.range length)
  return (positions.toList.take count)

def insertBefore (t n : Nat) : List Nat → List Nat
  | [] => []
  | m :: ms => if m = t then n :: m :: ms else m :: insertBefore t n ms

/--
Floyd's selection of `count` positions below `length`: each step makes one more position eligible,
and takes it if the drawn one is taken. Few positions are kept in random order on the way, many are
shuffled in the end.
-/
def selectFloyd (length count : Nat) : Draw (List Nat) := do
  let chosen ← (List.range count).foldlM (step (decide (count < 50)) (length - count)) []
  if count < 50 then
    return chosen
  else
    let shuffled ← (List.range (count - 1)).foldlM
      (fun positions k =>
        let i := count - 1 - k
        return exchange positions i (← below32 (i + 1)))
      chosen.toArray
    return shuffled.toList
where
  step (ordered : Bool) (first : Nat) (chosen : List Nat) (k : Nat) : Draw (List Nat) := do
    let j := first + k
    let t ← below32 (j + 1)
    if chosen.contains t then
      return if ordered then insertBefore t j chosen else chosen ++ [j]
    else
      return chosen ++ [t]

def prefersShuffle (length count : Nat) : Bool :=
  if count < 163 then
    let n := Float32.ofNat count
    let (constant, slope) : Float32 × Float32 :=
      if length < 500000 then (10.0, 1.6) else (70.0 / 9.0, 8.0 / 45.0)
    11 < count && Float32.ofNat length < (constant + slope * n) * n
  else
    true

def positions (length count : Nat) : Draw (List Nat) :=
  let count := min count length
  if prefersShuffle length count then shuffleFront length count else selectFloyd length count

end CircuitPartition.Random
