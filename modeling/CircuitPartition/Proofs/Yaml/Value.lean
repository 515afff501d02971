import CircuitPartition.Yaml.Value
import CircuitPartition.Proofs.Json.Number
import CircuitPartition.Proofs.Json.Record
import CircuitPartition.Proofs.Yaml.Document

/-!
Typed values in outlines: numbers and truth values are words, are read as what they were written
for, and are found under their keys.
-/

namespace CircuitPartition.Yaml

/-! ### Words for numbers -/

theorem isInert_of_isWordChar {c : Char} (h : Json.isWordChar c = true) : isInert c = true := by
  simp only [Json.isWordChar, Bool.or_eq_true] at h
  simp only [isInert, isWordChar, Bool.or_eq_true]
  tauto

theorem isInert_of_isDigit {c : Char} (h : c.isDigit = true) : isInert c = true :=
  isInert_of_isWordChar (Json.isWordChar_of_isDigit h)

theorem isDigit_toDigits (n : Nat) : ∀ c ∈ Nat.toDigits 10 n, c.isDigit = true :=
  fun _ => Nat.isDigit_of_mem_toDigits (by decide) (by decide)

theorem word_toString (n : Nat) : Word (toString n).toList := by
  obtain ⟨c, digits, heq, _⟩ := Decimal.toDigits_cons n
  rw [Nat.toString_eq_ofList_toDigits, String.toList_ofList]
  refine ⟨?_, ?_, fun d hd => isInert_of_isDigit (isDigit_toDigits n d hd)⟩
  . simp [heq]
  . intro hdash
    have hdigit := isDigit_toDigits n '-' (by rw [hdash]; exact List.mem_cons_self)
    exact absurd hdigit (by decide)

theorem ofHexDigit?_of_isDigit {c : Char} (h : c.isDigit = true) :
    Bytes.ofHexDigit? c = some (c.toNat - '0'.toNat) ∧ c.toNat - '0'.toNat < 10 := by
  simp only [Char.isDigit, Bool.and_eq_true, decide_eq_true_eq, ge_iff_le,
    UInt32.le_iff_toNat_le] at h
  constructor
  . exact if_pos h
  . exact Nat.sub_lt_left_of_lt_add h.left (Nat.lt_succ_of_le h.right)

theorem digits?_toDigits (n : Nat) : digits? 10 (Nat.toDigits 10 n) = some n := by
  have hfold (start : Nat) {digits : List Char} (h : ∀ c ∈ digits, c.isDigit = true) :
      digits.foldlM (fun n c => do
          let digit ← Bytes.ofHexDigit? c
          if digit < 10 then return 10 * n + digit else none) start
        = some (digits.foldl (fun value c => 10 * value + (c.toNat - '0'.toNat)) start) := by
    induction digits generalizing start with
    | nil => rfl
    | cons c digits ih =>
      rw [List.forall_mem_cons] at h
      obtain ⟨hdigit, hlt⟩ := ofHexDigit?_of_isDigit h.left
      rw [List.foldlM_cons, List.foldl_cons, ← ih _ h.right, hdigit]
      simp only [Option.bind_eq_bind, Option.bind_some, if_pos hlt]
      rfl
  have hvalue := Decimal.valueOf_toDigits n
  obtain ⟨c, digits, heq, _⟩ := Decimal.toDigits_cons n
  unfold Decimal.valueOf at hvalue
  unfold digits?
  rw [hfold 0 (isDigit_toDigits n), hvalue, heq]
  rfl

theorem nat?_toString {n limit : Nat} (h : n < limit) :
    nat? limit (toString n).toList = some n := by
  have hdigits := isDigit_toDigits n
  have hread := digits?_toDigits n
  obtain ⟨c, digits, heq, hzero⟩ := Decimal.toDigits_cons n
  rw [Nat.toString_eq_ofList_toDigits, String.toList_ofList, heq]
  rw [heq] at hdigits hread
  -- A zero in front is the only digit, so that no mark of a base can follow it.
  have hmark : ∀ d rest, c :: digits ≠ '0' :: d :: rest := by
    intro d rest hfront
    rw [List.cons.injEq] at hfront
    simp [hzero hfront.left] at hfront
  have hplus : nat?.withoutPlus (c :: digits) = c :: digits := by
    unfold nat?.withoutPlus
    split
    . next hfront =>
      rw [List.cons.injEq] at hfront
      exact absurd (hdigits c List.mem_cons_self) (by rw [hfront.left]; decide)
    . rfl
  have hdecimal : decimal? (c :: digits) = some n := by
    unfold decimal?
    split
    . next hfront => exact absurd hfront (hmark _ _)
    . exact hread
  unfold nat?
  rw [hplus]
  split
  . next hfront => exact absurd hfront (hmark _ _)
  . next hfront => exact absurd hfront (hmark _ _)
  . next hfront => exact absurd hfront (hmark _ _)
  . rw [hdecimal]
    exact if_pos h

theorem word_bool (b : Bool) : Word (if b then "true" else "false").toList := by
  cases b
  . exact word_of_all (by decide) (by decide) rfl
  . exact word_of_all (by decide) (by decide) rfl

theorem bool?_bool (b : Bool) : bool? (if b then "true" else "false").toList = some b := by
  cases b <;> rfl

/-! ### Words that are read as doubles -/

theorem inert_of_finite? {negative : Bool} {text : List Char} {x : Double}
    (h : finite? negative text = some x) : text ≠ [] ∧ ∀ c ∈ text, isInert c = true := by
  constructor
  . rintro rfl
    cases h
  . obtain ⟨numeral, hnumeral, _⟩ := Option.bind_eq_some_iff.mp h
    intro c hc
    exact isInert_of_isWordChar (Json.forall_isWordChar_read? hnumeral c hc)

theorem inert_of_contains {texts : List String} {text : List Char}
    (hinert : ∀ other ∈ texts, other.toList ≠ [] ∧ other.toList.all isInert = true)
    (h : texts.contains (String.ofList text) = true) :
    text ≠ [] ∧ ∀ c ∈ text, isInert c = true := by
  have hother := hinert _ (List.contains_iff_mem.mp h)
  rwa [String.toList_ofList, List.all_eq_true] at hother

theorem inert_of_isInfinity {text : List Char} (h : double?.isInfinity text = true) :
    text ≠ [] ∧ ∀ c ∈ text, isInert c = true :=
  inert_of_contains (by decide) h

theorem inert_of_unsigned? {text : List Char} {x : Double}
    (h : double?.unsigned? text = some x) : text ≠ [] ∧ ∀ c ∈ text, isInert c = true := by
  unfold double?.unsigned? at h
  split at h
  . next hinfinity => exact inert_of_isInfinity hinfinity
  . exact inert_of_finite? h

theorem word_of_double? {text : List Char} {x : Double} (h : double? text = some x) :
    Word text := by
  suffices hinert : text ≠ [] ∧ ∀ c ∈ text, isInert c = true by
    refine ⟨hinert.left, ?_, hinert.right⟩
    rintro rfl
    cases h
  unfold double? at h
  split at h
  . have hrest := inert_of_unsigned? h
    exact ⟨List.cons_ne_nil _ _, List.forall_mem_cons.mpr ⟨by decide, hrest.right⟩⟩
  . split at h
    . next hinfinity =>
      have hrest := inert_of_isInfinity hinfinity
      exact ⟨List.cons_ne_nil _ _, List.forall_mem_cons.mpr ⟨by decide, hrest.right⟩⟩
    . have hrest := inert_of_finite? h
      exact ⟨List.cons_ne_nil _ _, List.forall_mem_cons.mpr ⟨by decide, hrest.right⟩⟩
  . split at h
    . next hnan => exact inert_of_contains (by decide) hnan
    . exact inert_of_unsigned? h

/-! ### Values in documents -/

namespace Document

variable (d : Document)

theorem list?_wordNodes {β : Type} {read : Node Nat → Option β} {write : β → String}
    {values : List β} (h : ∀ value ∈ values, read (wordNode (write value)) = some value) :
    d.list? read (Contents.items (values.map write)).node = some values := by
  have hitems : ((values.map write).map wordNode).mapM read = some values := by
    induction values with
    | nil => rfl
    | cons value values ih =>
      rw [List.forall_mem_cons] at h
      rw [List.map_cons, List.map_cons, List.mapM_cons, h.left, ih h.right]
      rfl
  exact hitems

theorem entries?_mapping {β : Type} (key : β → String) (value : β → Node Nat) (entries : List β) :
    d.entries? (.mapping none (entries.map fun entry => (wordNode (key entry), value entry)))
      = some (entries.map fun entry => (key entry, value entry)) := by
  induction entries with
  | nil => rfl
  | cons entry entries ih =>
    simp only [entries?, resolve?, Option.bind_eq_bind, Option.bind_some] at ih ⊢
    rw [List.map_cons, List.mapM_cons, ih]
    rfl

theorem entries?_nodeOfEntries (entries : List Entry) :
    d.entries? (Part.nodeOfEntries entries)
      = some (entries.map fun entry => (entry.key, entry.contents.node)) := by
  cases entries with
  | nil => rfl
  | cons entry entries => exact entries?_mapping d Entry.key (·.contents.node) (entry :: entries)

end Document

theorem field?_of_mem {β : Type} {entries : List (String × Node Nat)} {read : Node Nat → Option β}
    (hnodup : (entries.map (·.1)).Nodup) {key : String} {node : Node Nat}
    (h : (key, node) ∈ entries) (default : β) :
    field? entries key default read = read node := by
  unfold field?
  rw [Json.filter_eq_singleton hnodup h]

theorem field?_of_not_mem {β : Type} {entries : List (String × Node Nat)}
    {read : Node Nat → Option β} {key : String} (h : key ∉ entries.map (·.1)) (default : β) :
    field? entries key default read = some default := by
  have hnone : entries.filter (·.1 == key) = [] := by
    rw [List.filter_eq_nil_iff]
    intro entry hentry heq
    exact h (List.mem_map.mpr ⟨entry, hentry, beq_iff_eq.mp heq⟩)
  unfold field?
  rw [hnone]

end CircuitPartition.Yaml
