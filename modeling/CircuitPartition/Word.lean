/-!
Unsigned numbers of a fixed width.
-/

namespace CircuitPartition.Word

def count (width : Nat) : Nat :=
  Nat.pow 2 width

theorem count_pos (width : Nat) : 0 < count width :=
  Nat.pow_pos (by decide)

end CircuitPartition.Word
