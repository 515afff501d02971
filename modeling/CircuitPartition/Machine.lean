import CircuitPartition.Error
import CircuitPartition.Word

/-!
What a machine adds to numbers and lists without bound. Pins are counted in words: past either end
of a word one build of a program stops, while another wraps around and goes on. Vectors have a
greatest size.
-/

namespace CircuitPartition

inductive Counting where
  | unbounded
  | stopping
  | wrapping
  deriving DecidableEq, Repr

namespace Counting

def next (counting : Counting) (n : Nat) : Except Fault Nat :=
  match counting with
  | .unbounded => .ok (n + 1)
  | .stopping => if n + 1 < Word.count 64 then .ok (n + 1) else .error .tooManyPins
  | .wrapping => .ok ((n + 1) % Word.count 64)

def previous (counting : Counting) : Nat → Except Fault Nat
  | 0 => if counting = .wrapping then .ok (Word.count 64 - 1) else .error .noPinLeft
  | n + 1 => .ok n

def Raises (counting : Counting) (fault : Fault) : Prop :=
  fault = .noPinLeft ∧ counting ≠ .wrapping ∨ fault = .tooManyPins ∧ counting = .stopping

def Covers (counting : Counting) (n : Nat) : Prop :=
  counting = .unbounded ∨ n < Word.count 64

variable {counting : Counting} {n m : Nat} {fault : Fault}

theorem Covers.mono (h : counting.Covers n) (hle : m ≤ n) : counting.Covers m := by
  cases h with
  | inl h => exact .inl h
  | inr h => exact .inr (by omega)

theorem next_of_covers (h : counting.Covers (n + 1)) : counting.next n = .ok (n + 1) := by
  cases h with
  | inl h =>
    subst h
    rfl
  | inr h =>
    cases counting with
    | unbounded => rfl
    | stopping => simp [next, h]
    | wrapping => simp [next, Nat.mod_eq_of_lt h]

theorem raises_of_next (h : counting.next n = .error fault) : counting.Raises fault := by
  cases counting with
  | unbounded => simp [next] at h
  | stopping =>
    dsimp only [next] at h
    split at h
    . simp at h
    . exact .inr ⟨(Except.error.inj h).symm, rfl⟩
  | wrapping => simp [next] at h

theorem raises_of_previous (h : counting.previous n = .error fault) : counting.Raises fault := by
  cases n with
  | zero =>
    dsimp only [previous] at h
    split at h
    . simp at h
    . next hne => exact .inl ⟨(Except.error.inj h).symm, hne⟩
  | succ n => simp [previous] at h

end Counting

namespace Machine

-- As many as a signed word can count.
def maxBytes : Nat :=
  Word.count 63 - 1

def reserve (bytes : Nat) : Except Fault Unit :=
  if maxBytes < bytes then .error .overlong else .ok ()

end Machine

end CircuitPartition
