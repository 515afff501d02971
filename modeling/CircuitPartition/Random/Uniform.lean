import CircuitPartition.Double
import CircuitPartition.Random.Seed

/-!
Uniform draws. A draw that would make some results likelier than others is repeated; each attempt
succeeds with a chance of at least one half, so that the bound on their number is never met.
-/

namespace CircuitPartition.Random

def maxAttempts : Nat :=
  4096

/--
Maps a word of `width` bits onto `range` numbers by the high half of its product with `range`. Low
halves beyond the largest multiple that all numbers share are refused.
-/
def scaleWord? (width range word : Nat) : Option Nat :=
  let product := word * range
  let zone := range * Word.count (width - 1 - range.log2) - 1
  if product % Word.count width ≤ zone then some (product / Word.count width) else none

theorem scaleWord?_lt {width range word n : Nat} (hword : word < Word.count width)
    (h : scaleWord? width range word = some n) (hrange : 0 < range) : n < range := by
  unfold scaleWord? at h
  dsimp only at h
  split at h
  . cases h
    rw [Nat.div_lt_iff_lt_mul (Word.count_pos width), Nat.mul_comm range]
    exact Nat.mul_lt_mul_of_pos_right hword hrange
  . simp at h

def below (width : Nat) (draw : Draw Nat) (range : Nat) : Draw Nat :=
  if range < Word.count width then attempt maxAttempts else draw
where
  attempt : Nat → Draw Nat
    | 0 => return 0
    | n + 1 => do
      match scaleWord? width range (← draw) with
      | some k => return k
      | none => attempt n

def below32 (range : Nat) : Draw Nat :=
  below 32 (return (← word).toNat) range

def below64 (range : Nat) : Draw Nat :=
  below 64 (return (← doubleWord).toNat) range

def fraction : Draw Double :=
  return (⟨(← doubleWord) >>> 12 ||| 0x3ff0000000000000⟩ : Double) - 1

def isDrawable (low high : Double) : Bool :=
  low < high && low.isFinite && high.isFinite && (high - low).isFinite

def between? (low high : Double) : Draw (Option Double) :=
  if isDrawable low high then some <$> attempt maxAttempts else return none
where
  attempt : Nat → Draw Double
    | 0 => return low
    | n + 1 => do
      let x := (← fraction) * (high - low) + low
      if x < high then return x else attempt n

end CircuitPartition.Random
