import CircuitPartition.Yaml.Node
import CircuitPartition.Proofs.Yaml.Outline
import Mathlib.Algebra.BigOperators.Group.List.Basic

/-!
The document that an outline is the text of: a mapping of its parts, which are mappings of their
entries.
-/

namespace CircuitPartition.Yaml

def wordNode {ι : Type} (text : String) : Node ι :=
  .scalar none none .plain text

def Contents.node {ι : Type} : Contents → Node ι
  | word text => wordNode text
  | items texts => .sequence none (texts.map wordNode)

def Entry.node {ι : Type} (entry : Entry) : Node ι × Node ι :=
  (wordNode entry.key, entry.contents.node)

def Part.nodeOfEntries {ι : Type} : List Entry → Node ι
  | [] => .blank
  | entries => .mapping none (entries.map Entry.node)

def Part.node {ι : Type} (part : Part) : Node ι × Node ι :=
  (wordNode part.name, nodeOfEntries part.entries)

def nodeOfOutline {ι : Type} (parts : List Part) : Node ι :=
  .mapping none (parts.map Part.node)

namespace Parser

variable {handles : Handles} {rest : List Token}

/-! ### Parsing -/

def EndsValue (rest : List Token) : Prop :=
  rest.head? = some .key ∨ rest.head? = some .blockEnd

theorem run_flatEntries_cons (fuel : Nat) (text : String) :
    (flatEntries handles (fuel + 3)).run (Contents.tokensOfItem text ++ rest)
      = ((flatEntries handles (fuel + 2)).run rest).bind
        fun parsed => some (wordNode text :: parsed.1, parsed.2) := rfl

theorem run_flatEntries (hrest : EndsValue rest) (texts : List String) {fuel : Nat}
    (hfuel : texts.length + 2 ≤ fuel) :
    (flatEntries handles fuel).run (texts.flatMap Contents.tokensOfItem ++ rest)
      = some (texts.map wordNode, rest) := by
  induction texts generalizing fuel with
  | nil =>
    obtain ⟨fuel, rfl⟩ := Nat.exists_eq_add_of_le' hfuel
    cases rest with
    | nil => rfl
    | cons token rest => obtain ⟨⟨⟩⟩ | ⟨⟨⟩⟩ := hrest <;> rfl
  | cons text texts ih =>
    rw [List.length_cons] at hfuel
    obtain ⟨fuel, rfl⟩ : ∃ more, fuel = more + 3 := ⟨fuel - 3, by omega⟩
    rw [List.flatMap_cons, List.append_assoc, run_flatEntries_cons, ih (by omega)]
    rfl

theorem run_nodeUnless_items (fuel : Nat) (text : String) :
    (nodeUnless handles .blockMapping [.key, .value, .blockEnd] (fuel + 2)).run
        (Contents.tokensOfItem text ++ rest)
      = ((flatEntries handles fuel).run (Contents.tokensOfItem text ++ rest)).bind
        fun parsed => some (.sequence none parsed.1, parsed.2) := rfl

theorem run_contents (hrest : EndsValue rest) (contents : Contents) {fuel : Nat}
    (hfuel : contents.tokens.length + 4 ≤ fuel) :
    (nodeUnless handles .blockMapping [.key, .value, .blockEnd] fuel).run (contents.tokens ++ rest)
      = some (contents.node, rest) := by
  obtain ⟨fuel, rfl⟩ : ∃ more, fuel = more + 4 := ⟨fuel - 4, by omega⟩
  cases contents with
  | word text => rfl
  | items texts =>
    cases texts with
    | nil => rfl
    | cons text texts =>
      have hlength : (text :: texts).length ≤ (Contents.items (text :: texts)).tokens.length := by
        simp [Contents.tokens, Contents.tokensOfItem]
        omega
      have hitems : (flatEntries handles (fuel + 2)).run _ = _ :=
        run_flatEntries hrest (text :: texts) (by omega)
      rw [List.flatMap_cons, List.append_assoc] at hitems
      rw [Contents.tokens, List.flatMap_cons, List.append_assoc, run_nodeUnless_items, hitems]
      . rfl
      . simp

theorem run_blockEntries_cons (fuel : Nat) (key : String) :
    (blockEntries handles (fuel + 3)).run ([.key, .scalar key .plain, .value] ++ rest)
      = ((nodeUnless handles .blockMapping [.key, .value, .blockEnd] (fuel + 2)).run rest).bind
        fun value => ((blockEntries handles (fuel + 2)).run value.2).bind
          fun parsed => some ((wordNode key, value.1) :: parsed.1, parsed.2) := rfl

theorem run_blockEntries {β : Type} (key : β → String) (tokens : β → List Token)
    (value : β → Node String) (least : Nat) (hleast : 2 ≤ least) {entries : List β}
    (h : ∀ entry ∈ entries, ∀ {rest fuel}, EndsValue rest → least ≤ fuel →
      (nodeUnless handles .blockMapping [.key, .value, .blockEnd] fuel).run (tokens entry ++ rest)
        = some (value entry, rest)) {fuel : Nat} (hfuel : entries.length + least + 1 ≤ fuel) :
    (blockEntries handles fuel).run (entries.flatMap
        (fun entry => [.key, .scalar (key entry) .plain, .value] ++ tokens entry)
          ++ .blockEnd :: rest)
      = some (entries.map fun entry => (wordNode (key entry), value entry), rest) := by
  induction entries generalizing fuel with
  | nil =>
    obtain ⟨fuel, rfl⟩ := Nat.exists_eq_add_of_le' hfuel
    rfl
  | cons entry entries ih =>
    rw [List.forall_mem_cons] at h
    rw [List.length_cons] at hfuel
    obtain ⟨fuel, rfl⟩ : ∃ more, fuel = more + 3 := ⟨fuel - 3, by omega⟩
    rw [List.flatMap_cons, List.append_assoc, List.append_assoc, run_blockEntries_cons, h.left]
    . rw [Option.bind_some, ih h.right (by omega)]
      rfl
    . cases entries with
      | nil => exact .inr rfl
      | cons other entries => exact .inl rfl
    . omega

theorem length_le_flatMap {β : Type} (tokens : β → List Token) {entries : List β} {entry : β}
    (h : entry ∈ entries) : (tokens entry).length ≤ (entries.flatMap tokens).length := by
  rw [List.flatMap_def]
  exact (List.sublist_flatten_of_mem (List.mem_map_of_mem h)).length_le

theorem count_le_flatMap {β : Type} {tokens : β → List Token} (h : ∀ entry, tokens entry ≠ [])
    (entries : List β) : entries.length ≤ (entries.flatMap tokens).length := by
  rw [List.length_flatMap, ← List.length_map fun entry => (tokens entry).length]
  apply List.length_le_sum_of_one_le
  rw [List.forall_mem_map]
  exact fun entry _ => List.length_pos_iff.mpr (h entry)

theorem Entry.tokens_ne_nil (entry : Entry) : entry.tokens ≠ [] :=
  List.cons_ne_nil _ _

theorem Part.tokens_ne_nil (part : Part) : part.tokens ≠ [] :=
  List.cons_ne_nil _ _

theorem run_nodeUnless_mapping (fuel : Nat) :
    (nodeUnless handles .blockMapping [.key, .value, .blockEnd] (fuel + 2)).run
        (.blockMappingStart :: rest)
      = ((blockEntries handles fuel).run rest).bind
        fun parsed => some (.mapping none parsed.1, parsed.2) := rfl

theorem run_entries (hrest : EndsValue rest) (entries : List Entry) {fuel : Nat}
    (hfuel : 2 * (Part.tokensOfEntries entries).length + 7 ≤ fuel) :
    (nodeUnless handles .blockMapping [.key, .value, .blockEnd] fuel).run
        (Part.tokensOfEntries entries ++ rest)
      = some (Part.nodeOfEntries entries, rest) := by
  obtain ⟨fuel, rfl⟩ : ∃ more, fuel = more + 2 := ⟨fuel - 2, by omega⟩
  cases entries with
  | nil =>
    cases rest with
    | nil => simp [EndsValue] at hrest
    | cons token rest => obtain ⟨⟨⟩⟩ | ⟨⟨⟩⟩ := hrest <;> rfl
  | cons entry entries =>
    generalize hentries : entry :: entries = all
    have htokens : Part.tokensOfEntries all
        = .blockMappingStart :: (all.flatMap Entry.tokens ++ [.blockEnd]) := by
      rw [← hentries]
      rfl
    have hcount := count_le_flatMap Entry.tokens_ne_nil all
    rw [hentries, htokens, List.length_cons, List.length_append, List.length_singleton] at hfuel
    have hparsed : (blockEntries handles fuel).run (all.flatMap Entry.tokens ++ .blockEnd :: rest)
        = some (all.map Entry.node, rest) := by
      refine run_blockEntries Entry.key (fun entry => entry.contents.tokens)
        (fun entry => entry.contents.node) ((all.flatMap Entry.tokens).length + 4) (by omega) ?_
        (by omega)
      intro entry hentry rest fuel hrest hfuel
      have hle := length_le_flatMap Entry.tokens hentry
      rw [Entry.tokens, List.length_append] at hle
      exact run_contents hrest entry.contents (by omega)
    rw [htokens, List.cons_append, List.append_assoc, List.singleton_append,
      run_nodeUnless_mapping, hparsed, ← hentries]
    rfl

theorem run_node_mapping (fuel : Nat) :
    (node handles .block (fuel + 1)).run (.blockMappingStart :: rest)
      = ((blockEntries handles fuel).run rest).bind
        fun parsed => some (.mapping none parsed.1, parsed.2) := rfl

theorem run_outline (parts : List Part) {fuel : Nat}
    (hfuel : 4 * (tokensOfOutline parts).length ≤ fuel) :
    (node handles .block fuel).run (tokensOfOutline parts) = some (nodeOfOutline parts, []) := by
  have htokens : tokensOfOutline parts
      = .blockMappingStart :: (parts.flatMap Part.tokens ++ [.blockEnd]) := rfl
  rw [htokens, List.length_cons, List.length_append, List.length_singleton] at hfuel
  obtain ⟨fuel, rfl⟩ : ∃ more, fuel = more + 1 := ⟨fuel - 1, by omega⟩
  have hcount := count_le_flatMap Part.tokens_ne_nil parts
  have hparsed : (blockEntries handles fuel).run (parts.flatMap Part.tokens ++ [.blockEnd])
      = some (parts.map Part.node, []) := by
    refine run_blockEntries Part.name (fun part => Part.tokensOfEntries part.entries)
      (fun part => Part.nodeOfEntries part.entries) (2 * (parts.flatMap Part.tokens).length + 4)
      (by omega) ?_ (by omega)
    intro part hpart rest fuel hrest hfuel
    have hle := length_le_flatMap Part.tokens hpart
    rw [Part.tokens, List.length_append] at hle
    exact run_entries hrest part.entries (by
      simp only [List.length_cons, List.length_nil] at hle
      omega)
  rw [htokens, run_node_mapping, hparsed]
  rfl

theorem run_onlyDocument (parts : List Part) :
    onlyDocument.run (tokensOfOutline parts) = some (nodeOfOutline parts, []) := by
  have hroot : (node standardHandles .block (4 * (tokensOfOutline parts).length + 8)).run _ = _ :=
    run_outline parts (Nat.le_add_right _ 8)
  have hends (fuel : Nat) : (skipEnds (fuel + 1)).run [] = some ((), []) := rfl
  have hpeek : peek.run (tokensOfOutline parts)
      = some (some .blockMappingStart, tokensOfOutline parts) := rfl
  simp [onlyDocument, hpeek, hroot, hends]

end Parser

/-! ### Numbering -/

namespace Node

def Unnamed (named : Node String) (numbered : Node Nat) : Prop :=
  ∀ names, (number named).run names = some (numbered, names)

theorem unnamed_word (text : String) : Unnamed (wordNode text) (wordNode text) :=
  fun _ => rfl

theorem run_numberItems (texts : List String) (names : Numbering) :
    (numberItems (texts.map wordNode)).run names = some (texts.map wordNode, names) := by
  induction texts with
  | nil => rfl
  | cons text texts ih =>
    rw [List.map_cons, List.map_cons, numberItems]
    simp [unnamed_word text names, ih]

theorem unnamed_contents (contents : Contents) : Unnamed contents.node contents.node := by
  cases contents with
  | word text => exact unnamed_word text
  | items texts =>
    intro names
    simp [Contents.node, number, numberAnchor, run_numberItems]

theorem unnamed_mapping {β : Type} {key : β → String} {named : β → Node String}
    {numbered : β → Node Nat} {entries : List β}
    (h : ∀ entry ∈ entries, Unnamed (named entry) (numbered entry)) :
    Unnamed (.mapping none (entries.map fun entry => (wordNode (key entry), named entry)))
      (.mapping none (entries.map fun entry => (wordNode (key entry), numbered entry))) := by
  have hentries (names : Numbering) :
      (numberEntries (entries.map fun entry => (wordNode (key entry), named entry))).run names
        = some (entries.map fun entry => (wordNode (key entry), numbered entry), names) := by
    induction entries with
    | nil => rfl
    | cons entry entries ih =>
      rw [List.forall_mem_cons] at h
      rw [List.map_cons, List.map_cons, numberEntries]
      simp [unnamed_word (key entry) names, h.left names, ih h.right]
  intro names
  simp [number, numberAnchor, hentries]

theorem unnamed_entries (entries : List Entry) :
    Unnamed (Part.nodeOfEntries entries) (Part.nodeOfEntries entries) := by
  cases entries with
  | nil => exact unnamed_word ""
  | cons entry entries => exact unnamed_mapping fun entry _ => unnamed_contents entry.contents

theorem unnamed_outline (parts : List Part) :
    Unnamed (nodeOfOutline parts) (nodeOfOutline parts) :=
  unnamed_mapping fun part _ => unnamed_entries part.entries

end Node

theorem Document.parse?_textOfOutline {parts : List Part} (hne : parts ≠ [])
    (h : ∀ part ∈ parts, part.WellFormed) :
    parse? (textOfOutline parts)
      = some ⟨nodeOfOutline parts, (nodeOfOutline parts).anchored []⟩ := by
  unfold parse?
  rw [tokens?_textOfOutline hne h]
  simp [Parser.run_onlyDocument, Node.unnamed_outline parts []]

end CircuitPartition.Yaml
