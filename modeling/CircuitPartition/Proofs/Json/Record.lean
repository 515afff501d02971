import CircuitPartition.Json.Record
import CircuitPartition.Proofs.Json.Printing

/-!
Records, lists and numbers that have been made into JSON values: they can be printed, and are read
as what they were made of.
-/

namespace CircuitPartition.Json

theorem filter_eq_singleton {β : Type} {entries : List (String × β)}
    (hnodup : (entries.map (·.1)).Nodup) {key : String} {value : β} (h : (key, value) ∈ entries) :
    entries.filter (·.1 == key) = [(key, value)] := by
  induction entries with
  | nil => simp at h
  | cons entry entries ih =>
    rw [List.map_cons, List.nodup_cons] at hnodup
    rw [List.filter_cons]
    cases List.mem_cons.mp h with
    | inl heq =>
      subst heq
      have hrest : entries.filter (·.1 == key) = [] := by
        rw [List.filter_eq_nil_iff]
        intro other hother heq
        exact hnodup.left (List.mem_map.mpr ⟨other, hother, by simpa using heq⟩)
      rw [hrest]
      simp
    | inr hmem =>
      have hne : entry.1 ≠ key := by
        rintro rfl
        exact hnodup.left (List.mem_map.mpr ⟨_, hmem, rfl⟩)
      rw [if_neg (by simpa using hne)]
      exact ih hnodup.right hmem

theorem valueOfKey?_of_mem {entries : List (String × Json)}
    (hnodup : (entries.map (·.1)).Nodup) {key : String} {value : Json}
    (h : (key, value) ∈ entries) :
    valueOfKey? (entries.map fun (key, value) => (some key, value)) key = some (some value) := by
  have hkey : ((·.1 == some key) : Option String × Json → Bool)
        ∘ (fun (key, value) => (some key, value))
      = (·.1 == key) := by
    funext entry
    simp
  unfold valueOfKey?
  rw [List.filter_map, hkey, filter_eq_singleton hnodup h]
  rfl

theorem record?_ofFields {fields : List Field} (hnodup : (fields.map (·.key)).Nodup)
    {entries : List (String × Json)} (hkeys : fields.map (·.key) = entries.map (·.1)) :
    (ofFields entries).record? fields = some (entries.map fun (_, value) => some value) := by
  rw [hkeys] at hnodup
  have hfields : ∀ {fields : List Field} {listed : List (String × Json)},
      (∀ entry ∈ listed, entry ∈ entries) → fields.map (·.key) = listed.map (·.1) →
      fields.mapM (fieldOfEntries? (entries.map fun (key, value) => (some key, value)))
        = some (listed.map fun (_, value) => some value) := by
    intro fields listed hlisted hkeys
    induction listed generalizing fields with
    | nil =>
      rw [List.map_nil, List.map_eq_nil_iff] at hkeys
      subst hkeys
      rfl
    | cons entry listed ih =>
      cases fields with
      | nil => simp at hkeys
      | cons field fields =>
        rw [List.map_cons, List.map_cons, List.cons.injEq] at hkeys
        rw [List.forall_mem_cons] at hlisted
        have hvalue : fieldOfEntries? (entries.map fun (key, value) => (some key, value)) field
            = some (some entry.2) := by
          unfold fieldOfEntries?
          rw [hkeys.left, valueOfKey?_of_mem hnodup hlisted.left]
          rfl
        rw [List.mapM_cons, hvalue, ih hlisted.right hkeys.right]
        rfl
  unfold ofFields record?
  dsimp only
  rw [if_pos (by simp)]
  exact hfields (fun _ h => h) hkeys

theorem list?_map {β : Type} {write : β → Json} {read : Json → Option β} {values : List β}
    (h : ∀ value ∈ values, read (write value) = some value) :
    list? read (.array (values.map write)) = some values := by
  unfold list?
  induction values with
  | nil => rfl
  | cons value values ih =>
    rw [List.forall_mem_cons] at h
    dsimp only at ih ⊢
    rw [List.map_cons, List.mapM_cons, h.left, ih h.right]
    rfl

theorem list?_map_eq_none {β : Type} {write : β → Json} {read : Json → Option β} {values : List β}
    {value : β} (hmem : value ∈ values) (h : read (write value) = none) :
    list? read (.array (values.map write)) = none := by
  unfold list?
  induction values with
  | nil => simp at hmem
  | cons other values ih =>
    dsimp only at ih ⊢
    rw [List.map_cons, List.mapM_cons]
    cases List.mem_cons.mp hmem with
    | inl heq =>
      subst heq
      rw [h]
      rfl
    | inr hmem =>
      rw [ih hmem]
      cases read (write other) with
      | none => rfl
      | some _ => rfl

theorem printable_ofFields {entries : List (String × Json)}
    (h : ∀ entry ∈ entries, entry.2.Printable) : (ofFields entries).Printable := by
  constructor
  . intro entry hentry
    obtain ⟨original, _, rfl⟩ := List.mem_map.mp hentry
    rfl
  . intro entry hentry
    obtain ⟨original, hmem, rfl⟩ := List.mem_map.mp hentry
    exact h original hmem

theorem printable_map {β : Type} {write : β → Json} {values : List β}
    (h : ∀ value ∈ values, (write value).Printable) : (array (values.map write)).Printable := by
  constructor
  intro item hitem
  obtain ⟨value, hmem, rfl⟩ := List.mem_map.mp hitem
  exact h value hmem

theorem printable_elim {β : Type} {write : β → Json} {value : Option β}
    (h : ∀ contents, value = some contents → (write contents).Printable) :
    (value.elim .null write).Printable := by
  cases value with
  | none => exact .null
  | some contents => exact h contents rfl

theorem optional?_elim {β : Type} {write : β → Json} {read : Json → Option β} {value : Option β}
    (hnull : ∀ contents, write contents ≠ .null)
    (h : ∀ contents, value = some contents → read (write contents) = some contents) :
    optional? read (some (value.elim .null write)) = some value := by
  cases value with
  | none => rfl
  | some contents =>
    rw [Option.elim_some, optional?, h contents rfl]
    . rfl
    . simpa using hnull contents

theorem printable_ofString (text : String) : (ofString text).Printable :=
  .string text

theorem printable_ofNat (n : Nat) : (ofNat n).Printable := by
  constructor
  rw [Nat.toString_eq_ofList_toDigits, String.toList_ofList, numeral?_toDigits]
  rfl

theorem printable_ofIndices (ns : List Nat) : (ofIndices ns).Printable :=
  printable_map fun n _ => printable_ofNat n

theorem index?_ofNat {n : Nat} (h : n < Word.count 64) : (ofNat n).index? = some n :=
  nat?_ofNat h

theorem uint32?_ofNat (n : UInt32) : (ofNat n.toNat).uint32? = some n := by
  have hlt : n.toNat < Word.count 32 := n.toNat_lt
  unfold uint32?
  rw [nat?_ofNat hlt, Option.map_some, UInt32.ofNat_toNat]

theorem list?_ofIndices {ns : List Nat} (h : ∀ n ∈ ns, n < Word.count 64) :
    (ofIndices ns).list? index? = some ns :=
  list?_map fun n hn => index?_ofNat (h n hn)

def ReadsBack (x : Double) : Prop :=
  (ofDouble x).double? = some x

instance (x : Double) : Decidable (ReadsBack x) :=
  inferInstanceAs (Decidable (_ = some x))

theorem printable_ofDouble {x : Double} (h : x.isFinite = true → ReadsBack x) :
    (ofDouble x).Printable := by
  unfold ReadsBack ofDouble at *
  split
  . next hfinite =>
    have hread := h hfinite
    rw [if_pos hfinite] at hread
    obtain ⟨n, hn, _⟩ := Option.bind_eq_some_iff.mp hread
    constructor
    rw [hn]
    rfl
  . exact .null

theorem printable_ofDoubles {xs : List Double}
    (h : ∀ x ∈ xs, x.isFinite = true → ReadsBack x) : (ofDoubles xs).Printable :=
  printable_map fun x hx => printable_ofDouble (h x hx)

theorem list?_ofDoubles {xs : List Double} (h : ∀ x ∈ xs, ReadsBack x) :
    (ofDoubles xs).list? double? = some xs :=
  list?_map h

theorem list?_ofDoubles_eq_none {xs : List Double} {x : Double} (hx : x ∈ xs)
    (h : x.isFinite = false) : (ofDoubles xs).list? double? = none := by
  apply list?_map_eq_none hx
  unfold ofDouble
  rw [if_neg (by simp [h])]
  rfl

end CircuitPartition.Json
