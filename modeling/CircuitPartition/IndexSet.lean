/-!
Sets of indices as strictly ascending lists, and the inversion of a family of lists: for each index
the set of the lists that mention it.
-/

namespace CircuitPartition.IndexSet

def insert (n : Nat) : List Nat → List Nat
  | [] => [n]
  | m :: ms =>
    if n < m then n :: m :: ms
    else if n = m then m :: ms
    else m :: insert n ms

theorem mem_insert {n k : Nat} {ms : List Nat} : k ∈ insert n ms ↔ k = n ∨ k ∈ ms := by
  induction ms with
  | nil => simp [insert]
  | cons m ms ih => grind [insert]

theorem pairwise_insert {n : Nat} {ms : List Nat} (h : ms.Pairwise (· < ·)) :
    (insert n ms).Pairwise (· < ·) := by
  induction ms with
  | nil => simp [insert]
  | cons m ms ih =>
    rw [List.pairwise_cons] at h
    grind [insert, mem_insert, List.pairwise_cons]

def ofList (ns : List Nat) : List Nat :=
  ns.foldr insert []

@[simp]
theorem mem_ofList {k : Nat} {ns : List Nat} : k ∈ ofList ns ↔ k ∈ ns := by
  induction ns with
  | nil => simp [ofList]
  | cons n ns ih =>
    rw [List.mem_cons, ← ih]
    exact mem_insert

theorem pairwise_ofList (ns : List Nat) : (ofList ns).Pairwise (· < ·) := by
  induction ns with
  | nil => simp [ofList]
  | cons n ns ih => exact pairwise_insert ih

def cons (i : Nat) : List Nat → List Nat
  -- No number of the list is less than `i`.
  | [] => [i]
  | j :: js => if j = i then j :: js else i :: j :: js

/--
For each index below `size`, the positions in `family` of the lists that mention it. The family is
gone through from its end, so that positions come in ascending order and a repetition within one
list is seen at once.
-/
def invert (family : List (List Nat)) (size : Nat) : Array (List Nat) :=
  family.zipIdx.foldr
    (fun (members, i) sets => members.foldl (fun sets n => sets.modify n (cons i)) sets)
    (Array.replicate size [])

end CircuitPartition.IndexSet
