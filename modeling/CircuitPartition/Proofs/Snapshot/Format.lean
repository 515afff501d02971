import CircuitPartition.Snapshot.Binary
import CircuitPartition.Word
import Mathlib.Data.List.Basic

/-!
Formats read back what they write, in front of any other bytes, and never look at bytes behind what
they read. So no value is written as the beginning of another one.
-/

namespace CircuitPartition.Snapshot.Binary

variable {β γ : Type}

namespace Format

def ReadsBack (format : Format β) (value : β) : Prop :=
  ∀ rest, format.read? (format.write value ++ rest) = some (value, rest)

def Streams (format : Format β) : Prop :=
  ∀ ⦃bytes value rest⦄, format.read? bytes = some (value, rest) →
    ∀ more, format.read? (bytes ++ more) = some (value, rest ++ more)

variable {format : Format β}

theorem ReadsBack.append_inj {a b : β} (ha : format.ReadsBack a) (hb : format.ReadsBack b)
    {as bs : List UInt8} (h : format.write a ++ as = format.write b ++ bs) : a = b ∧ as = bs := by
  have hread := ha as
  rw [h, hb bs, Option.some.injEq, Prod.mk.injEq] at hread
  exact ⟨hread.left.symm, hread.right.symm⟩

theorem ReadsBack.refuses_front {value : β} (hvalue : format.ReadsBack value)
    (hformat : format.Streams) {front : List UInt8} (hfront : front <+: format.write value)
    (hne : front ≠ format.write value) : format.read? front = none := by
  obtain ⟨more, hmore⟩ := hfront
  rw [Option.eq_none_iff_forall_ne_some]
  rintro ⟨other, rest⟩ hread
  have hwhole := hformat hread more
  have hback := hvalue []
  rw [List.append_nil, ← hmore, hwhole, Option.some.injEq, Prod.mk.injEq] at hback
  rw [← hmore] at hne
  simp_all

theorem Streams.map (h : format.Streams) (convert : β → γ) :
    ∀ ⦃bytes value rest⦄,
      (format.read? bytes).map (fun (value, rest) => (convert value, rest)) = some (value, rest) →
      ∀ more, (format.read? (bytes ++ more)).map (fun (value, rest) => (convert value, rest))
        = some (value, rest ++ more) := by
  intro bytes value rest hread more
  obtain ⟨⟨original, left⟩, horiginal, heq⟩ := Option.map_eq_some_iff.mp hread
  rw [Prod.mk.injEq] at heq
  obtain ⟨rfl, rfl⟩ := heq
  rw [h horiginal more]
  rfl

end Format

theorem readsBack_number {width n : Nat} (h : n < Nat.pow 256 width) :
    (number width).ReadsBack n := by
  intro rest
  have hfront : (Bytes.littleEndian width n ++ rest).take width = Bytes.littleEndian width n := by
    rw [List.take_append_of_le_length (by simp)]
    simp [List.take_of_length_le]
  have hbehind : (Bytes.littleEndian width n ++ rest).drop width = rest := by
    rw [List.drop_append_of_le_length (by simp)]
    simp [List.drop_of_length_le]
  unfold number
  simp only [hfront, hbehind, Bytes.length_littleEndian, Bytes.toNat_littleEndian, if_true,
    Nat.mod_eq_of_lt h]

theorem streams_number (width : Nat) : (number width).Streams := by
  intro bytes value rest h more
  unfold number at h ⊢
  dsimp only at h ⊢
  split at h
  . next hlength =>
    rw [Option.some.injEq, Prod.mk.injEq] at h
    obtain ⟨rfl, rfl⟩ := h
    have hle : width ≤ bytes.length := by
      rw [List.length_take] at hlength
      omega
    rw [List.take_append_of_le_length hle, List.drop_append_of_le_length hle, if_pos hlength]
  . simp at h

theorem readsBack_index {n : Nat} (h : n < Word.count 64) : index.ReadsBack n :=
  readsBack_number (Nat.lt_of_lt_of_eq h (by decide))

theorem streams_index : index.Streams :=
  streams_number 8

theorem readsBack_version (n : UInt32) : version.ReadsBack n := by
  intro rest
  have hlt : n.toNat < Nat.pow 256 4 := n.toNat_lt
  unfold version
  dsimp only
  rw [readsBack_number hlt rest, Option.map_some, UInt32.ofNat_toNat]

theorem streams_version : version.Streams :=
  (streams_number 4).map UInt32.ofNat

theorem readsBack_double (x : Double) : double.ReadsBack x := by
  intro rest
  have hlt : x.bits.toNat < Nat.pow 256 8 := x.bits.toNat_lt
  unfold double
  dsimp only
  rw [readsBack_number hlt rest, Option.map_some, UInt64.ofNat_toNat]

theorem streams_double : double.Streams :=
  (streams_number 8).map fun n => Double.mk (UInt64.ofNat n)

theorem readItems?_flatMap {item : Format β} {values : List β}
    (h : ∀ value ∈ values, item.ReadsBack value) (items : List β) (rest : List UInt8) :
    readItems? item values.length items (values.flatMap item.write ++ rest)
      = some (values.reverse ++ items, rest) := by
  induction values generalizing items with
  | nil => rfl
  | cons value values ih =>
    rw [List.forall_mem_cons] at h
    rw [List.flatMap_cons, List.append_assoc, List.length_cons, readItems?, h.left]
    simp [ih h.right]

theorem streams_readItems? {item : Format β} (hitem : item.Streams) {count : Nat}
    {before items : List β} {bytes rest : List UInt8}
    (h : readItems? item count before bytes = some (items, rest)) (more : List UInt8) :
    readItems? item count before (bytes ++ more) = some (items, rest ++ more) := by
  induction count generalizing before bytes with
  | zero =>
    rw [readItems?, Option.some.injEq, Prod.mk.injEq] at h
    obtain ⟨rfl, rfl⟩ := h
    rfl
  | succ count ih =>
    simp only [readItems?, Option.bind_eq_bind, Option.bind_eq_some_iff] at h
    obtain ⟨⟨value, left⟩, hvalue, h⟩ := h
    simp only [readItems?, Option.bind_eq_bind, hitem hvalue more, Option.bind_some]
    exact ih h

theorem readsBack_list {item : Format β} {values : List β}
    (hlength : values.length < Word.count 64) (h : ∀ value ∈ values, item.ReadsBack value) :
    (list item).ReadsBack values := by
  intro rest
  unfold list
  dsimp only
  rw [List.append_assoc, readsBack_index hlength]
  simp [readItems?_flatMap h]

theorem streams_list {item : Format β} (hitem : item.Streams) : (list item).Streams := by
  intro bytes values rest h more
  simp only [list, Option.bind_eq_bind, Option.bind_eq_some_iff, Option.pure_def,
    Option.some.injEq, Prod.mk.injEq] at h
  obtain ⟨⟨count, behind⟩, hcount, ⟨items, rest⟩, hitems, rfl, rfl⟩ := h
  simp [list, streams_index hcount more, streams_readItems? hitem hitems more]

theorem readsBack_option {item : Format β} {value : Option β}
    (h : ∀ contents, value = some contents → item.ReadsBack contents) :
    (option item).ReadsBack value := by
  intro rest
  cases value with
  | none => rfl
  | some contents => simp [option, h contents rfl rest]

theorem streams_option {item : Format β} (hitem : item.Streams) : (option item).Streams := by
  intro bytes value rest h more
  unfold option at h ⊢
  dsimp only at h ⊢
  split at h
  . next left =>
    rw [Option.some.injEq, Prod.mk.injEq] at h
    obtain ⟨rfl, rfl⟩ := h
    rfl
  . next left => exact hitem.map some h more
  . simp at h

theorem readsBack_pair {first : Format β} {second : Format γ} {value : β × γ}
    (hfirst : first.ReadsBack value.1) (hsecond : second.ReadsBack value.2) :
    (pair first second).ReadsBack value := by
  intro rest
  unfold pair
  dsimp only
  rw [List.append_assoc, hfirst]
  simp [hsecond rest]

theorem streams_pair {first : Format β} {second : Format γ} (hfirst : first.Streams)
    (hsecond : second.Streams) : (pair first second).Streams := by
  intro bytes value rest h more
  simp only [pair, Option.bind_eq_bind, Option.bind_eq_some_iff, Option.pure_def,
    Option.some.injEq, Prod.mk.injEq] at h
  obtain ⟨⟨a, behind⟩, ha, ⟨b, rest⟩, hb, rfl, rfl⟩ := h
  simp [pair, hfirst ha more, hsecond hb more]

theorem readsBack_via {format : Format γ} {image : β → γ} {preimage : γ → β} {value : β}
    (hpreimage : preimage (image value) = value) (h : format.ReadsBack (image value)) :
    (via format image preimage).ReadsBack value := by
  intro rest
  unfold via
  dsimp only
  rw [h rest, Option.map_some, hpreimage]

theorem streams_via {format : Format γ} (h : format.Streams) (image : β → γ)
    (preimage : γ → β) : (via format image preimage).Streams :=
  h.map preimage

end CircuitPartition.Snapshot.Binary
