import CircuitPartition.Scalar
import Mathlib.Algebra.Order.Field.Basic
import Mathlib.Algebra.Order.Ring.Rat
import Mathlib.Algebra.BigOperators.Group.List.Basic
import Mathlib.Data.Rat.Sqrt
import Mathlib.Tactic.Linarith
import Mathlib.Tactic.NormNum.OfScientific
import Mathlib.Tactic.Positivity

/-!
Exact arithmetic for the cost model: what it asks of numbers that adding and subtracting them rounds
nothing, and ordered fields as numbers of the cost model. Powers and roots stay arbitrary functions.
-/

namespace CircuitPartition

-- An exact number has its operations from the field first, whatever is imported.
attribute [instance(low)] Scalar.toAdd Scalar.toSub Scalar.toMul Scalar.toDiv Scalar.toNeg
  Scalar.toLT Scalar.toLE Scalar.toBEq Scalar.toZero Scalar.toOne Scalar.toNatCast
  Scalar.toOfScientific Scalar.toDecidableLT Scalar.toDecidableLE

/-- Sums that do not depend on the order of their terms, and differences that undo them. -/
class ExactAddition (α : Type) [Scalar α] : Prop where
  add_assoc (a b c : α) : a + b + c = a + (b + c)
  add_comm (a b : α) : a + b = b + a
  zero_add (a : α) : 0 + a = a
  add_sub_cancel (a b : α) : a + b - b = a

section Addition

variable {α : Type} [Scalar α] [ExactAddition α]

theorem addOnto_comm (row a b : List α) :
    addOnto (addOnto row a) b = addOnto (addOnto row b) a := by
  induction row generalizing a b with
  | nil => cases a <;> cases b <;> rfl
  | cons x row ih =>
    cases a with
    | nil => cases b <;> rfl
    | cons y a =>
      cases b with
      | nil => rfl
      | cons z b =>
        simp only [addOnto, List.cons.injEq]
        constructor
        . rw [ExactAddition.add_assoc, ExactAddition.add_comm y, ← ExactAddition.add_assoc]
        . apply ih

theorem addOnto_assoc (row a b : List α) (h : b.length ≤ a.length) :
    addOnto row (addOnto a b) = addOnto (addOnto row a) b := by
  induction row generalizing a b with
  | nil => cases a <;> cases b <;> rfl
  | cons x row ih =>
    cases a with
    | nil =>
      cases b with
      | nil => rfl
      | cons z b => simp at h
    | cons y a =>
      cases b with
      | nil => rfl
      | cons z b =>
        simp only [addOnto, List.cons.injEq]
        constructor
        . rw [ExactAddition.add_assoc]
        . apply ih
          simpa using h

theorem takeOff_addOnto (row a : List α) : takeOff (addOnto row a) a = row := by
  induction row generalizing a with
  | nil => cases a <;> rfl
  | cons x row ih =>
    cases a with
    | nil => rfl
    | cons y a =>
      simp only [addOnto, takeOff, List.cons.injEq]
      constructor
      . apply ExactAddition.add_sub_cancel
      . apply ih

theorem replicate_zero_addOnto (n : Nat) (a : List α) (h : a.length = n) :
    addOnto (List.replicate n 0) a = a := by
  induction a generalizing n with
  | nil =>
    subst h
    rfl
  | cons x a ih =>
    subst h
    simp only [List.length_cons, List.replicate_succ, addOnto, List.cons.injEq]
    constructor
    . apply ExactAddition.zero_add
    . apply ih
      rfl

end Addition

class ExactScalar (α : Type) extends Field α, LinearOrder α, IsStrictOrderedRing α where
  pow : α → α → α
  sqrt : α → α

namespace ExactScalar

variable {α : Type} [ExactScalar α]

instance : Scalar α where
  toDecidableLT := inferInstance
  toDecidableLE := inferInstance
  pow := ExactScalar.pow
  sqrt := ExactScalar.sqrt
  isFinite _ := true

instance : ExactAddition α where
  add_assoc := add_assoc
  add_comm := add_comm
  zero_add := zero_add
  add_sub_cancel := add_sub_cancel_right

instance : ExactScalar ℚ where
  pow x y := x ^ y.num.toNat
  sqrt x := Rat.sqrt x

theorem sum_eq_sum (values : List α) : Scalar.sum values = values.sum := by
  rw [List.sum_eq_foldl]
  rfl

theorem max_eq_max (a b : α) : Scalar.max a b = Max.max a b := by
  unfold Scalar.max
  rw [if_pos (beq_self_eq_true b)]
  split
  . next h => rw [max_eq_left (le_of_lt h)]
  . next h => rw [max_eq_right (not_lt.mp h)]

theorem abs_eq_abs (a : α) : Scalar.abs a = |a| := by
  unfold Scalar.abs
  split
  . next h => rw [abs_of_neg h]
  . next h => rw [abs_of_nonneg (not_lt.mp h)]

theorem approxEq_self (a tolerance : α) (h : 0 ≤ tolerance) : approxEq a a tolerance = true := by
  unfold approxEq
  rw [sub_self, abs_eq_abs 0, abs_zero, decide_eq_true_eq]
  apply mul_nonneg h
  rw [max_eq_max]
  apply le_max_of_le_right
  exact zero_le_one

end ExactScalar

end CircuitPartition
