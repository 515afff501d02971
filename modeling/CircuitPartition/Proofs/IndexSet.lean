import CircuitPartition.IndexSet
import Mathlib.Data.List.Basic

/-!
Inverting a family of lists: each index gets exactly the positions of the lists that mention it, in
ascending order.
-/

namespace CircuitPartition.IndexSet

theorem insert_of_lt {n : Nat} {ms : List Nat} (h : ∀ m ∈ ms, n < m) : insert n ms = n :: ms := by
  cases ms with
  | nil => rfl
  | cons m ms => rw [insert, if_pos (h m List.mem_cons_self)]

theorem ofList_of_pairwise {ns : List Nat} (h : ns.Pairwise (· < ·)) : ofList ns = ns := by
  induction ns with
  | nil => rfl
  | cons n ns ih =>
    rw [List.pairwise_cons] at h
    unfold ofList at ih ⊢
    rw [List.foldr_cons, ih h.right, insert_of_lt h.left]

theorem length_ofList {ns : List Nat} (h : ns.Nodup) : (ofList ns).length = ns.length := by
  have hnodup : (ofList ns).Nodup := (pairwise_ofList ns).imp Nat.ne_of_lt
  apply List.Perm.length_eq
  rw [List.perm_ext_iff_of_nodup hnodup h]
  intro n
  exact mem_ofList

theorem cons_cons_self (i : Nat) (js : List Nat) : cons i (cons i js) = cons i js := by
  cases js with
  | nil => simp [cons]
  | cons j js =>
    by_cases h : j = i
    . simp [cons, h]
    . simp [cons, h]

theorem cons_of_lt {i : Nat} {js : List Nat} (h : ∀ j ∈ js, i < j) : cons i js = i :: js := by
  cases js with
  | nil => rfl
  | cons j js =>
    have : j ≠ i := by
      have := h j List.mem_cons_self
      omega
    simp [cons, this]

def mentions (family : List (List Nat × Nat)) (n : Nat) : List Nat :=
  (family.filter fun (members, _) => members.contains n).map (·.2)

theorem mem_mentions {family : List (List Nat)} {n i : Nat} :
    i ∈ mentions family.zipIdx n ↔ ∃ members, family[i]? = some members ∧ n ∈ members := by
  unfold mentions
  simp only [List.mem_map, List.mem_filter, List.contains_iff_mem, Prod.exists,
    List.mem_zipIdx_iff_getElem?]
  constructor
  . rintro ⟨members, j, ⟨hget, hmem⟩, rfl⟩
    exact ⟨members, hget, hmem⟩
  . rintro ⟨members, hget, hmem⟩
    exact ⟨members, i, ⟨hget, hmem⟩, rfl⟩

theorem pairwise_mentions (family : List (List Nat)) (n : Nat) :
    (mentions family.zipIdx n).Pairwise (· < ·) := by
  have h : (family.zipIdx.map (·.2)).Pairwise (· < ·) := by
    rw [List.zipIdx_map_snd]
    exact List.pairwise_lt_range'
  apply List.Pairwise.sublist _ h
  apply List.Sublist.map
  apply List.filter_sublist

theorem getElem?_record (members : List Nat) (i n : Nat) (sets : Array (List Nat)) :
    (members.foldl (fun sets n => sets.modify n (cons i)) sets)[n]?
      =
    sets[n]?.map fun js => if members.contains n then cons i js else js := by
  induction members generalizing sets with
  | nil => simp
  | cons m members ih =>
    rw [List.foldl_cons, ih, Array.getElem?_modify]
    by_cases hm : m = n
    . subst hm
      cases sets[m]? with
      | none => simp
      | some js => simp [cons_cons_self]
    . have : n ≠ m := by omega
      simp [hm, this]

theorem size_record (members : List Nat) (i : Nat) (sets : Array (List Nat)) :
    (members.foldl (fun sets n => sets.modify n (cons i)) sets).size = sets.size := by
  induction members generalizing sets with
  | nil => rfl
  | cons m members ih =>
    rw [List.foldl_cons, ih, Array.size_modify]

theorem getElem?_foldr_record {family : List (List Nat × Nat)} {size n : Nat} (hn : n < size)
    (hasc : (family.map (·.2)).Pairwise (· < ·)) :
    (family.foldr
      (fun (members, i) sets => members.foldl (fun sets n => sets.modify n (cons i)) sets)
      (Array.replicate size []))[n]?
      =
    some (mentions family n) := by
  induction family with
  | nil => simp [mentions, hn]
  | cons entry family ih =>
    obtain ⟨members, i⟩ := entry
    rw [List.map_cons, List.pairwise_cons] at hasc
    rw [List.foldr_cons, getElem?_record, ih hasc.right]
    -- Positions are recorded from the last one on, so a new one comes before all others.
    have hlt : ∀ j ∈ mentions family n, i < j := by
      intro j hj
      apply hasc.left
      unfold mentions at hj
      rw [List.mem_map] at hj ⊢
      obtain ⟨entry, hentry, rfl⟩ := hj
      exact ⟨entry, List.mem_of_mem_filter hentry, rfl⟩
    rw [Option.map_some, cons_of_lt hlt]
    unfold mentions
    by_cases hm : n ∈ members
    . simp [hm]
    . simp [hm]

@[simp]
theorem size_invert (family : List (List Nat)) (size : Nat) : (invert family size).size = size := by
  unfold invert
  induction family.zipIdx with
  | nil => simp
  | cons entry entries ih => rw [List.foldr_cons, size_record, ih]

theorem getElem?_invert (family : List (List Nat)) {size n : Nat} (hn : n < size) :
    (invert family size)[n]? = some (mentions family.zipIdx n) := by
  apply getElem?_foldr_record hn
  rw [List.zipIdx_map_snd]
  exact List.pairwise_lt_range'

def Inverts (index? : Nat → Option (List Nat)) (size : Nat) (members : Nat → List Nat) : Prop :=
  ∀ n < size, ∃ set, index? n = some set ∧ set.Pairwise (· < ·) ∧ ∀ i, i ∈ set ↔ n ∈ members i

theorem inverts_invert (family : List (List Nat)) (size : Nat) :
    Inverts ((invert family size)[·]?) size (fun i => family[i]?.getD []) := by
  intro n hn
  refine ⟨mentions family.zipIdx n, getElem?_invert family hn, pairwise_mentions family n, ?_⟩
  intro i
  dsimp only
  rw [mem_mentions]
  cases family[i]? with
  | none => simp
  | some members => simp

end CircuitPartition.IndexSet
