import CircuitPartition.Partition.Table
import CircuitPartition.Proofs.Exact
import CircuitPartition.Proofs.Lookup
import Mathlib.Data.List.Perm.Basic

/-!
The tables of a partition as functions of what has entered them: degrees count blocks, balances sum
up weights. Entering and leaving follow, and with exact addition the order does not matter.
-/

namespace CircuitPartition

def apart (blocks : List Nat) : Bool :=
  blocks.any fun a => blocks.any (a != ·)

theorem apart_iff {blocks : List Nat} :
    apart blocks = true ↔ ∃ a ∈ blocks, ∃ b ∈ blocks, a ≠ b := by
  simp [apart]

theorem apart_cons (first : Nat) (blocks : List Nat) :
    apart (first :: blocks) = blocks.any (· != first) := by
  rw [Bool.eq_iff_iff, apart_iff, List.any_eq_true]
  simp only [bne_iff_ne]
  constructor
  . rintro ⟨a, ha, b, hb, hne⟩
    by_cases hfirst : a = first
    . subst hfirst
      exact ⟨b, List.mem_of_ne_of_mem hne.symm hb, hne.symm⟩
    . exact ⟨a, List.mem_of_ne_of_mem hfirst ha, hfirst⟩
  . rintro ⟨b, hb, hne⟩
    exact ⟨b, List.mem_cons_of_mem first hb, first, List.mem_cons_self, hne⟩

namespace Degrees

def count (numParts : Nat) (blocks : List Nat) : Degrees :=
  (Array.range numParts).map blocks.count

variable {numParts : Nat} {blocks : List Nat} {block : Nat}

@[simp]
theorem size_count : (count numParts blocks).size = numParts := by
  simp [count]

theorem getElem?_count (h : block < numParts) :
    (count numParts blocks)[block]? = some (blocks.count block) := by
  simp [count, h]

theorem count_perm {blocks' : List Nat} (h : blocks.Perm blocks') :
    count numParts blocks = count numParts blocks' := by
  unfold count
  congr 1
  funext block
  rw [h.count_eq]

theorem set_count {n : Nat} {blocks' : List Nat} (hn : blocks'.count block = n)
    (hne : ∀ b, b ≠ block → blocks'.count b = blocks.count b) :
    (count numParts blocks).set! block n = count numParts blocks' := by
  apply Array.ext_getElem?
  intro b
  rw [Array.set!_eq_setIfInBounds, Array.getElem?_setIfInBounds, size_count]
  cases Nat.lt_or_ge b numParts with
  | inl hb =>
    rw [getElem?_count hb, getElem?_count hb]
    split
    . next heq =>
      subst heq
      simp [hb, hn]
    . next hne' =>
      rw [hne b]
      exact fun heq => hne' heq.symm
  | inr hb =>
    simp [hb]
    omega

theorem enter?_count (h : block < numParts) :
    (count numParts blocks).enter? block = some (count numParts (block :: blocks)) := by
  unfold enter?
  rw [getElem?_count h]
  simp only [Option.pure_def, Option.bind_eq_bind, Option.bind_some, Option.some.injEq]
  apply set_count
  . simp
  . intro b hb
    rw [List.count_cons_of_ne]
    exact hb.symm

theorem leave_count (counting : Counting) (h : block < numParts) :
    counting.leave (count numParts (block :: blocks)) block = .ok (count numParts blocks) := by
  unfold Counting.leave
  rw [getElem?_count h, List.count_cons_self, Fault.liftM_some, ok_bind, Counting.previous, ok_bind,
    pure_eq_ok, Except.ok.injEq]
  apply set_count rfl
  intro b hb
  rw [List.count_cons_of_ne]
  exact hb.symm

theorem enter_count {counting : Counting} (h : block < numParts)
    (hcovers : counting.Covers (blocks.length + 1)) :
    counting.enter (count numParts blocks) block = .ok (count numParts (block :: blocks)) := by
  have hnext : counting.next (blocks.count block) = .ok (blocks.count block + 1) := by
    apply Counting.next_of_covers
    apply hcovers.mono
    have := List.count_le_length (a := block) (l := blocks)
    omega
  unfold Counting.enter
  rw [getElem?_count h, Fault.liftM_some, ok_bind, hnext, ok_bind, pure_eq_ok, Except.ok.injEq]
  apply set_count
  . simp
  . intro b hb
    rw [List.count_cons_of_ne]
    exact hb.symm

theorem foldlM_enter? (h : ∀ b ∈ blocks, b < numParts) (entered : List Nat) :
    blocks.foldlM enter? (count numParts entered)
      =
    some (count numParts (blocks.reverse ++ entered)) := by
  induction blocks generalizing entered with
  | nil => rfl
  | cons b blocks ih =>
    rw [List.forall_mem_cons] at h
    rw [List.foldlM_cons, enter?_count h.left, Option.bind_eq_bind, Option.bind_some, ih h.right]
    simp

theorem ofBlocks?_eq_count (h : ∀ b ∈ blocks, b < numParts) :
    ofBlocks? numParts blocks = some (count numParts blocks) := by
  have hempty : Array.replicate numParts 0 = count numParts [] := by
    apply Array.ext <;> simp [count]
  unfold ofBlocks?
  rw [hempty, foldlM_enter? h]
  congr 1
  apply count_perm
  simp

theorem one_lt_spanned_count (h : ∀ b ∈ blocks, b < numParts) :
    1 < (count numParts blocks).spanned ↔ apart blocks = true := by
  -- A block is spanned if it is listed, so the spanned blocks are the set of the listed ones.
  have hspanned : (count numParts blocks).spanned = blocks.toFinset.card := by
    unfold spanned count
    rw [Array.countP_map, ← Array.countP_toList, Array.toList_range, List.countP_eq_length_filter]
    rw [← List.toFinset_card_of_nodup (List.nodup_range.filter _)]
    congr 1
    ext block
    simp only [List.mem_toFinset, List.mem_filter, List.mem_range, Function.comp_apply,
      decide_eq_true_eq, List.count_pos_iff]
    constructor
    . intro hblock
      exact hblock.right
    . intro hblock
      exact ⟨h block hblock, hblock⟩
  rw [hspanned, Finset.one_lt_card, apart_iff]
  simp

end Degrees

namespace Balance

variable {α : Type}

structure HasShape (rows columns : Nat) (balance : Balance α) : Prop where
  size_eq : balance.size = rows
  length_eq : ∀ row ∈ balance, row.length = columns

theorem HasShape.modify {rows columns : Nat} {balance : Balance α}
    (h : balance.HasShape rows columns)
    (block : Nat) {f : List α → List α} (hf : ∀ row, (f row).length = row.length) :
    HasShape rows columns (balance.modify block f) := by
  constructor
  . rw [Array.size_modify]
    exact h.size_eq
  . intro row hrow
    obtain ⟨i, hi, rfl⟩ := Array.mem_iff_getElem.mp hrow
    rw [Array.size_modify] at hi
    rw [Array.getElem_modify]
    have := h.length_eq balance[i] (Array.getElem_mem hi)
    split
    . rw [hf, this]
    . exact this

variable {rows columns : Nat} {balance : Balance α}

theorem hasShape_iff : balance.HasShape rows columns
    ↔ ¬(balance.size ≠ rows ∨ balance.any (·.length ≠ columns) = true) := by
  simp only [not_or, not_not, Array.any_eq_true', decide_eq_true_eq, not_exists, not_and]
  constructor
  . intro h
    exact ⟨h.size_eq, h.length_eq⟩
  . rintro ⟨hsize, hlength⟩
    exact ⟨hsize, hlength⟩

theorem set!_eq_modify {row : List α} {block : Nat} (h : balance[block]? = some row)
    (f : List α → List α) : balance.set! block (f row) = balance.modify block f := by
  apply Array.ext_getElem?
  intro b
  obtain ⟨hlt, hrow⟩ := Array.getElem?_eq_some_iff.mp h
  rw [Array.set!_eq_setIfInBounds, Array.getElem?_setIfInBounds, Array.getElem?_modify]
  split
  . next heq =>
    subst heq
    simp [hlt, hrow]
  . rfl

theorem HasShape.getElem?_of_lt (h : balance.HasShape rows columns) {block : Nat}
    (hb : block < rows) : ∃ row, balance[block]? = some row ∧ row.length = columns := by
  rw [← h.size_eq] at hb
  exact ⟨balance[block], Array.getElem?_eq_getElem hb, h.length_eq _ (Array.getElem_mem hb)⟩

variable [Scalar α]

theorem HasShape.empty : HasShape rows columns (Balance.empty rows columns : Balance α) := by
  constructor
  . simp [Balance.empty]
  . intro row hrow
    unfold Balance.empty at hrow
    rw [Array.mem_replicate] at hrow
    rw [hrow.right, List.length_replicate]

theorem HasShape.enter? (h : balance.HasShape rows columns) {block : Nat} (hb : block < rows)
    {weight : List α} (hw : weight.length = columns) :
    balance.enter? block weight = some (balance.modify block (addOnto · weight)) := by
  obtain ⟨row, hrow, hlength⟩ := h.getElem?_of_lt hb
  unfold Balance.enter?
  rw [hrow, Option.bind_eq_bind, Option.bind_some, if_neg (by omega), ← set!_eq_modify hrow]
  rfl

theorem HasShape.leave? (h : balance.HasShape rows columns) {block : Nat} (hb : block < rows)
    {weight : List α} (hw : weight.length = columns) :
    balance.leave? block weight = some (balance.modify block (takeOff · weight)) := by
  obtain ⟨row, hrow, hlength⟩ := h.getElem?_of_lt hb
  unfold Balance.leave?
  rw [hrow, Option.bind_eq_bind, Option.bind_some, if_neg (by omega), ← set!_eq_modify hrow]
  rfl

def load (balance : Balance α) (entries : List (Nat × List α)) : Balance α :=
  entries.foldl (fun balance (block, weight) => balance.modify block (addOnto · weight)) balance

theorem HasShape.load (h : balance.HasShape rows columns) (entries : List (Nat × List α)) :
    (balance.load entries).HasShape rows columns := by
  induction entries generalizing balance with
  | nil => exact h
  | cons entry entries ih =>
    apply ih
    apply h.modify
    simp

theorem HasShape.foldlM_enter? (h : balance.HasShape rows columns) {entries : List (Nat × List α)}
    (hentries : ∀ entry ∈ entries, entry.1 < rows ∧ entry.2.length = columns) :
    entries.foldlM (fun balance (block, weight) => balance.enter? block weight) balance
      =
    some (balance.load entries) := by
  induction entries generalizing balance with
  | nil => rfl
  | cons entry entries ih =>
    obtain ⟨block, weight⟩ := entry
    rw [List.forall_mem_cons] at hentries
    obtain ⟨⟨hblock, hlength⟩, hentries⟩ := hentries
    dsimp only at hblock hlength
    rw [List.foldlM_cons]
    dsimp only
    rw [h.enter? hblock hlength]
    apply ih
    . apply h.modify
      simp
    . exact hentries

section Exact

variable [ExactAddition α]

theorem modify_addOnto_comm (balance : Balance α) (a b : Nat) (v w : List α) :
    (balance.modify a (addOnto · v)).modify b (addOnto · w)
      =
    (balance.modify b (addOnto · w)).modify a (addOnto · v) := by
  apply Array.ext_getElem?
  intro i
  simp only [Array.getElem?_modify]
  by_cases ha : a = i
  . by_cases hb : b = i
    . cases balance[i]? with
      | none => simp
      | some row => simp [ha, hb, addOnto_comm row v w]
    . simp [ha, hb]
  . simp [ha]

theorem modify_takeOff_addOnto (balance : Balance α) (block : Nat) (weight : List α) :
    (balance.modify block (addOnto · weight)).modify block (takeOff · weight) = balance := by
  apply Array.ext_getElem?
  intro i
  simp only [Array.getElem?_modify]
  split
  . cases balance[i]? with
    | none => rfl
    | some row => simp [takeOff_addOnto]
  . rfl

theorem load_perm {entries entries' : List (Nat × List α)} (h : entries.Perm entries') :
    balance.load entries = balance.load entries' := by
  unfold load
  apply h.foldl_eq'
  rintro ⟨a, v⟩ _ ⟨b, w⟩ _ balance
  apply modify_addOnto_comm

theorem modify_takeOff_load (entries : List (Nat × List α)) (block : Nat) (weight : List α) :
    (balance.load ((block, weight) :: entries)).modify block (takeOff · weight)
      =
    balance.load entries := by
  have hperm : ((block, weight) :: entries).Perm (entries ++ [(block, weight)]) := by
    exact (List.perm_append_singleton _ _).symm
  rw [load_perm hperm]
  unfold load
  rw [List.foldl_append]
  apply modify_takeOff_addOnto

theorem modify_addOnto_load (entries : List (Nat × List α)) (block : Nat) (weight : List α) :
    (balance.load entries).modify block (addOnto · weight)
      =
    balance.load ((block, weight) :: entries) := by
  have hperm : ((block, weight) :: entries).Perm (entries ++ [(block, weight)]) := by
    exact (List.perm_append_singleton _ _).symm
  rw [load_perm hperm]
  unfold load
  rw [List.foldl_append]
  rfl

theorem foldl_addOnto_addOnto (rows : List (List α)) (row weight : List α) :
    rows.foldl addOnto (addOnto row weight) = addOnto (rows.foldl addOnto row) weight := by
  induction rows generalizing row with
  | nil => rfl
  | cons r rows ih => rw [List.foldl_cons, List.foldl_cons, addOnto_comm row weight r, ih]

theorem foldl_addOnto_modify (rows : List (List α)) (block : Nat) (weight row : List α)
    (hblock : block < rows.length) (hrows : ∀ r ∈ rows, weight.length ≤ r.length) :
    (rows.modify block (addOnto · weight)).foldl addOnto row
      =
    addOnto (rows.foldl addOnto row) weight := by
  induction rows generalizing block row with
  | nil => simp at hblock
  | cons r rows ih =>
    rw [List.forall_mem_cons] at hrows
    cases block with
    | zero =>
      rw [List.modify_zero_cons, List.foldl_cons, List.foldl_cons]
      rw [addOnto_assoc row r weight hrows.left, foldl_addOnto_addOnto]
    | succ block =>
      rw [List.modify_succ_cons, List.foldl_cons, List.foldl_cons]
      apply ih
      . simpa using hblock
      . exact hrows.right

theorem foldl_addOnto_load (h : balance.HasShape rows columns) {entries : List (Nat × List α)}
    (hentries : ∀ entry ∈ entries, entry.1 < rows ∧ entry.2.length = columns) (row : List α) :
    (balance.load entries).foldl addOnto row
      =
    (entries.map (·.2)).foldl addOnto (balance.foldl addOnto row) := by
  induction entries generalizing balance with
  | nil => rfl
  | cons entry entries ih =>
    obtain ⟨block, weight⟩ := entry
    rw [List.forall_mem_cons] at hentries
    obtain ⟨⟨hblock, hlength⟩, hentries⟩ := hentries
    dsimp only at hblock hlength
    have hshape := h.modify block (f := (addOnto · weight)) (by simp)
    rw [List.map_cons, List.foldl_cons]
    have := ih hshape hentries
    unfold load at this ⊢
    rw [List.foldl_cons, this]
    congr 1
    rw [← Array.foldl_toList, ← Array.foldl_toList, Array.toList_modify]
    apply foldl_addOnto_modify
    . rw [Array.length_toList, h.size_eq]
      exact hblock
    . intro r hr
      rw [h.length_eq r (by simpa using hr)]
      omega

end Exact

end Balance

end CircuitPartition
