import CircuitPartition.Graph.Basic

/-!
The checks on indices and vectors that building and annotating a hypergraph share.
-/

namespace CircuitPartition

variable {α : Type}

def Entity.require (kind : Entity) (index count : Nat) : Except (GraphError α) Unit :=
  if index < count then .ok () else .error (.unknown kind index count)

theorem Entity.require_eq_ok {kind : Entity} {index count : Nat} :
    (kind.require index count : Except (GraphError α) Unit) = .ok () ↔ index < count := by
  simp [require]

namespace Quantity

def requireDimensions (what : Quantity) (expected actual : Nat) : Except (GraphError α) Unit :=
  if expected = actual then .ok () else .error (.dimensionMismatch what expected actual)

theorem requireDimensions_eq_ok {what : Quantity} {expected actual : Nat} :
    (what.requireDimensions expected actual : Except (GraphError α) Unit) = .ok () ↔
      expected = actual := by
  simp [requireDimensions]

def requireFinite [Scalar α] (what : Quantity) (values : List α) : Except (GraphError α) Unit :=
  match values.findIdx? (!Scalar.isFinite ·) with
  | none => .ok ()
  | some index => .error (.nonFinite what index)

theorem requireFinite_eq_ok [Scalar α] {what : Quantity} {values : List α} :
    what.requireFinite values = .ok () ↔ ∀ x ∈ values, Scalar.isFinite x = true := by
  unfold requireFinite
  split
  . rename_i h
    simpa [List.findIdx?_eq_none_iff] using h
  . rename_i h
    simp only [reduceCtorEq, false_iff]
    intro hall
    rw [List.findIdx?_eq_some_iff_getElem] at h
    obtain ⟨hlt, hnot, _⟩ := h
    simp [hall _ (List.getElem_mem hlt)] at hnot

end Quantity

end CircuitPartition
